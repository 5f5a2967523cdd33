import Mathlib.Data.List.Cycle
import Mathlib.Tactic.Common

/-!
# Positions in a cycle

Seen from one member of a cycle, another one is so many places ahead. The number says how
long it takes to get there, one member at a time. It grows by at most one when a third
member joins the cycle, and it does not grow when one leaves.
-/

namespace CyclicOrder

universe u

variable {α : Type u} {a b d x : α} {c : Cycle α} {l l' m m' w : List α} {n : Nat}

/-- From `a` on, `n` members of the cycle come before `b`. -/
def Ahead (c : Cycle α) (a b : α) (n : Nat) : Prop :=
  ∃ u v : List α, c = ↑(a :: (u ++ b :: v)) ∧ u.length = n

/-- Lists of distinct members that are rotations of each other and begin with the same
member are the same. -/
theorem eq_of_isRotated_cons (h : (a :: m).IsRotated (a :: m')) (hm : (a :: m).Nodup) :
    m = m' := by
  obtain ⟨k, hk, hrot⟩ := List.isRotated_iff_mod.mp h
  rcases Nat.lt_or_eq_of_le hk with hlt | rfl
  · have hhead : (a :: m)[k]? = some a := by
      rw [← List.head?_rotate hlt, hrot]
      rfl
    have hzero : k = 0 := (List.getElem?_inj hlt hm).mp hhead
    rw [hzero, List.rotate_zero] at hrot
    exact (List.cons.inj hrot).2
  · rw [List.rotate_length] at hrot
    exact (List.cons.inj hrot).2

theorem isRotated_filter (p : α → Bool) (h : l.IsRotated l') :
    (l.filter p).IsRotated (l'.filter p) := by
  obtain ⟨k, hk, rfl⟩ := List.isRotated_iff_mod.mp h
  rw [List.rotate_eq_drop_append_take hk, List.filter_append]
  conv_lhs => rw [← List.take_append_drop k l, List.filter_append]
  exact List.isRotated_append

/-- Another member is somewhere ahead. -/
theorem exists_ahead (ha : a ∈ c) (hb : b ∈ c) (hne : a ≠ b) :
    ∃ n, n + 2 ≤ c.length ∧ Ahead c a b n := by
  induction c using Quotient.inductionOn' with
  | _ l =>
      obtain ⟨l₁, l₂, rfl⟩ := List.append_of_mem (show a ∈ l from ha)
      have hrot : (l₁ ++ a :: l₂).IsRotated (a :: (l₂ ++ l₁)) := by
        rw [← List.cons_append]
        exact List.isRotated_append
      have hmem : b ∈ l₂ ++ l₁ := by
        have hb' : b ∈ a :: (l₂ ++ l₁) := hrot.mem_iff.mp hb
        exact (List.mem_cons.mp hb').resolve_left (Ne.symm hne)
      obtain ⟨u, v, huv⟩ := List.append_of_mem hmem
      refine ⟨u.length, ?_, u, v, ?_, rfl⟩
      · have hlen : (l₂ ++ l₁).length = u.length + (v.length + 1) := by
          rw [huv, List.length_append, List.length_cons]
        change u.length + 2 ≤ (l₁ ++ a :: l₂).length
        rw [List.length_append] at hlen ⊢
        rw [List.length_cons]
        omega
      · rw [← huv]
        exact Cycle.coe_eq_coe.mpr hrot

/-- One place further on. -/
theorem Ahead.step (h : Ahead c a b n) : ∃ x w, c = ↑(a :: x :: w) ∧
    ((x = b ∧ n = 0) ∨ ∃ k, n = k + 1 ∧ Ahead c x b k) := by
  obtain ⟨u, v, rfl, rfl⟩ := h
  cases u with
  | nil => exact ⟨b, v, rfl, .inl ⟨rfl, rfl⟩⟩
  | cons x u =>
      refine ⟨x, u ++ b :: v, rfl, .inr ⟨u.length, rfl, u, v ++ [a], ?_, rfl⟩⟩
      have hrot : (a :: ((x :: u) ++ b :: v)).IsRotated (((x :: u) ++ b :: v) ++ [a]) :=
        (List.isRotated_concat a _).symm
      rw [Cycle.coe_eq_coe.mpr hrot]
      simp

variable [DecidableEq α]

theorem filter_ne_of_notMem (h : d ∉ l) : l.filter (· ≠ d) = l := by
  refine List.filter_eq_self.mpr fun y hy => ?_
  have hyd : y ≠ d := by
    rintro rfl
    exact h hy
  simpa using hyd

theorem filter_ne_cons (h : b ≠ d) : (b :: l).filter (· ≠ d) = b :: l.filter (· ≠ d) :=
  List.filter_cons_of_pos (by simpa using h)

/-- Leaving out one member costs at most one place. -/
theorem length_le_filter_ne (h : l.Nodup) : l.length ≤ (l.filter (· ≠ d)).length + 1 := by
  have herase : l.filter (· ≠ d) = l.erase d := by
    rw [h.erase_eq_filter]
    exact List.filter_congr fun y _ => by rw [bne, Bool.beq_eq_decide_eq, decide_not]
  rw [herase, List.length_erase]
  split <;> omega

/-- Without `d` two lists of distinct members are the same, so they are rotations of each
other from the same member on. -/
theorem filter_eq_of_cons (hf : l.filter (· ≠ d) = l'.filter (· ≠ d)) (hda : a ≠ d)
    (hl : l.IsRotated (a :: m)) (hl' : l'.IsRotated (a :: m')) (hnd : (a :: m).Nodup) :
    m.filter (· ≠ d) = m'.filter (· ≠ d) := by
  have hrot : (a :: m.filter (· ≠ d)).IsRotated (a :: m'.filter (· ≠ d)) := by
    rw [← filter_ne_cons hda, ← filter_ne_cons hda]
    refine (isRotated_filter _ hl).symm.trans ?_
    rw [hf]
    exact isRotated_filter _ hl'
  apply eq_of_isRotated_cons hrot
  rw [← filter_ne_cons hda]
  exact hnd.filter _

/-- A third member that joins, leaves or changes its place. -/
theorem Ahead.of_filter (h : Ahead ↑l a b n) (hnd : l.Nodup) (hnd' : l'.Nodup)
    (hf : l.filter (· ≠ d) = l'.filter (· ≠ d)) (hda : a ≠ d) (hdb : b ≠ d) :
    ∃ k, Ahead ↑l' a b k ∧ k ≤ n + 1 ∧ (d ∉ l' → k ≤ n) := by
  obtain ⟨u, v, hc, rfl⟩ := h
  have hl := Cycle.coe_eq_coe.mp hc
  have hndm := hl.nodup_iff.mp hnd
  have hmem : a ∈ l' := by
    have ha : a ∈ l.filter (· ≠ d) :=
      List.mem_filter.mpr ⟨hl.mem_iff.mpr List.mem_cons_self, by simpa using hda⟩
    rw [hf] at ha
    exact (List.mem_filter.mp ha).1
  obtain ⟨l₁, l₂, hl₁₂⟩ := List.append_of_mem hmem
  have hl' : l'.IsRotated (a :: (l₂ ++ l₁)) := by
    rw [hl₁₂, ← List.cons_append]
    exact List.isRotated_append
  have hrest := filter_eq_of_cons hf hda hl hl' hndm
  have hbmem : b ∈ l₂ ++ l₁ := by
    have hb : b ∈ (u ++ b :: v).filter (· ≠ d) :=
      List.mem_filter.mpr ⟨by simp, by simpa using hdb⟩
    rw [hrest] at hb
    exact (List.mem_filter.mp hb).1
  obtain ⟨u', v', huv'⟩ := List.append_of_mem hbmem
  rw [huv', List.filter_append, List.filter_append, filter_ne_cons hdb, filter_ne_cons hdb]
    at hrest
  rw [huv'] at hl'
  have hu : u.filter (· ≠ d) = u'.filter (· ≠ d) := by
    obtain ⟨-, hbv, hdisj⟩ := List.nodup_append.mp (List.nodup_cons.mp hndm).2
    have hbu : b ∉ u.filter (· ≠ d) := fun hb =>
      hdisj b (List.mem_filter.mp hb).1 b List.mem_cons_self rfl
    have hbv' : b ∉ v.filter (· ≠ d) := fun hb =>
      (List.nodup_cons.mp hbv).1 (List.mem_filter.mp hb).1
    exact ((List.append_cons_inj_of_notMem hbu hbv').mp hrest).1
  have hndu : u'.Nodup :=
    (List.nodup_append.mp (List.nodup_cons.mp (hl'.nodup_iff.mp hnd')).2).1
  have hle : (u'.filter (· ≠ d)).length ≤ u.length := hu ▸ List.length_filter_le _ _
  refine ⟨u'.length, ⟨u', v', Cycle.coe_eq_coe.mpr hl', rfl⟩, ?_, fun hd => ?_⟩
  · have := length_le_filter_ne (d := d) hndu
    omega
  · rwa [filter_ne_of_notMem fun hdu => hd (hl'.mem_iff.mpr (by simp [hdu]))] at hle

/-- The member from which the places are counted leaves, and the next one takes over. -/
theorem Ahead.of_leave (h : Ahead ↑l a b n) (hnd : l.Nodup)
    (hf : l.filter (· ≠ a) = l'.filter (· ≠ a)) (ha : a ∉ l') :
    ∃ x w, (l : Cycle α) = ↑(a :: x :: w) ∧
      ((x = b ∧ n = 0) ∨ ∃ k, n = k + 1 ∧ Ahead ↑l' x b k) := by
  obtain ⟨u, v, hc, rfl⟩ := h
  have hl := Cycle.coe_eq_coe.mp hc
  have hnot := (List.nodup_cons.mp (hl.nodup_iff.mp hnd)).1
  have hl' : l'.IsRotated (u ++ b :: v) := by
    have hrest : (a :: (u ++ b :: v)).filter (· ≠ a) = u ++ b :: v := by
      rw [List.filter_cons_of_neg (by simp), filter_ne_of_notMem hnot]
    rw [← filter_ne_of_notMem ha, ← hf, ← hrest]
    exact (isRotated_filter _ hl)
  cases u with
  | nil => exact ⟨b, v, hc, .inl ⟨rfl, rfl⟩⟩
  | cons x u =>
      exact ⟨x, u ++ b :: v, hc, .inr ⟨u.length, rfl, u, v, Cycle.coe_eq_coe.mpr hl', rfl⟩⟩

end CyclicOrder
