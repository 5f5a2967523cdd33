import Mathlib.Data.List.Cycle
import Mathlib.Data.List.Iterate
import Mathlib.Tactic.Common

/-!
# Doubly linked rings

A ring is a cycle of distinct locations whose forward and backward links follow
the cycle. Insertion behind a member and removal of a member are described by what
they do to the two link functions, so that any memory that provides such functions
can use the rules.
-/

namespace LinkedRing

universe u

variable {Loc : Type u}

/-- The forward and backward link of every location. -/
structure Links (Loc : Type u) where
  next : Loc → Loc
  prev : Loc → Loc

/-- `b` is the successor of `a` and `a` the predecessor of `b`. -/
def Links.Joined (L : Links Loc) (a b : Loc) : Prop := L.next a = b ∧ L.prev b = a

/-- The links follow the cycle `c`, which visits no location twice. -/
structure IsRing (L : Links Loc) (c : Cycle Loc) : Prop where
  nodup : c.Nodup
  linked : c.Chain L.Joined

variable {L L' : Links Loc} {c : Cycle Loc} {a b p : Loc} {l : List Loc}

/-- A cycle can be read from any of its members on. -/
theorem exists_cons_of_mem (h : a ∈ c) : ∃ l : List Loc, c = ↑(a :: l) := by
  induction c using Quotient.inductionOn' with
  | _ l =>
      obtain ⟨l₁, l₂, rfl⟩ := List.append_of_mem (show a ∈ l from h)
      refine ⟨l₂ ++ l₁, Cycle.coe_eq_coe.mpr ?_⟩
      rw [← List.cons_append]
      exact List.isRotated_append

/-- A step along a list starts outside its last and ends outside its first place. -/
theorem isChain_imp {R S : Loc → Loc → Prop} {l : List Loc} (h : l.IsChain R)
    (H : ∀ x ∈ l.dropLast, ∀ y ∈ l.tail, R x y → S x y) : l.IsChain S := by
  induction l with
  | nil => exact .nil
  | cons a l ih =>
      cases l with
      | nil => exact .singleton a
      | cons b l =>
          rw [List.isChain_cons_cons] at h ⊢
          refine ⟨H a (by simp) b (by simp) h.1, ih h.2 fun x hx y hy => ?_⟩
          exact H x (by simp [hx]) y (List.mem_of_mem_tail hy)

theorem isRing_singleton (h : L.next a = a) (h' : L.prev a = a) : IsRing L ↑[a] :=
  ⟨by simp, (Cycle.chain_singleton _ _).mpr ⟨h, h'⟩⟩

namespace IsRing

theorem nodup_cons (h : IsRing L ↑(a :: l)) : a ∉ l ∧ l.Nodup := by
  simpa using h.nodup

theorem next_eq (h : IsRing L ↑(a :: b :: l)) : L.next a = b := by
  have := h.linked
  rw [Cycle.chain_coe_cons, List.cons_append, List.isChain_cons_cons] at this
  exact this.1.1

theorem next_mem (h : IsRing L c) (ha : a ∈ c) : L.next a ∈ c := by
  obtain ⟨l, rfl⟩ := exists_cons_of_mem ha
  cases l with
  | nil =>
      have := (Cycle.chain_singleton _ _).mp h.linked
      rw [this.1]
      exact ha
  | cons b l =>
      rw [h.next_eq]
      simp

/-- The last location of a ring is the predecessor of the first. -/
theorem prev_eq (h : IsRing L ↑(a :: l)) : L.prev a = (a :: l).getLast (by simp) := by
  have hl := h.linked
  rw [Cycle.chain_ne_nil _ (by simp : a :: l ≠ []), List.isChain_cons_cons] at hl
  exact hl.1.2

theorem prev_mem (h : IsRing L c) (ha : a ∈ c) : L.prev a ∈ c := by
  obtain ⟨l, rfl⟩ := exists_cons_of_mem ha
  rw [h.prev_eq]
  exact List.getLast_mem _

theorem next_prev (h : IsRing L c) (ha : a ∈ c) : L.next (L.prev a) = a := by
  obtain ⟨l, rfl⟩ := exists_cons_of_mem ha
  have hl := h.linked
  rw [Cycle.chain_ne_nil _ (by simp : a :: l ≠ []), List.isChain_cons_cons] at hl
  rw [h.prev_eq, hl.1.1]

/-- A location is its own successor only in a ring of one. -/
theorem next_eq_self_iff (h : IsRing L ↑(a :: l)) : L.next a = a ↔ l = [] := by
  constructor
  · intro hself
    cases l with
    | nil => rfl
    | cons b l =>
        rw [h.next_eq] at hself
        exact absurd (by simp [hself]) h.nodup_cons.1
  · rintro rfl
    exact ((Cycle.chain_singleton _ _).mp h.linked).1

/-- Every member is reached from every other one along the forward links. -/
theorem exists_iterate_next (h : IsRing L c) (ha : a ∈ c) (hb : b ∈ c) :
    ∃ n, L.next^[n] a = b := by
  obtain ⟨l, rfl⟩ := exists_cons_of_mem ha
  have hlinked := h.linked
  rw [Cycle.chain_coe_cons, ← List.cons_append, List.isChain_append] at hlinked
  have reach : ∀ (l : List Loc) (a : Loc), (a :: l).IsChain L.Joined →
      ∀ b ∈ a :: l, ∃ n, L.next^[n] a = b := by
    intro l
    induction l with
    | nil =>
        intro a _ b hb
        exact ⟨0, (List.mem_singleton.mp hb).symm⟩
    | cons x l ih =>
        intro a hchain b hb
        rw [List.isChain_cons_cons] at hchain
        rcases List.mem_cons.mp hb with rfl | hb
        · exact ⟨0, rfl⟩
        · obtain ⟨n, hn⟩ := ih x hchain.2 b hb
          exact ⟨n + 1, by rw [Function.iterate_succ_apply, hchain.1.1, hn]⟩
  exact reach l a hlinked.1 b hb

theorem iterate_next_mem (h : IsRing L c) (ha : a ∈ c) (n : Nat) : L.next^[n] a ∈ c := by
  induction n with
  | zero => exact ha
  | succ n ih =>
      rw [Function.iterate_succ_apply']
      exact h.next_mem ih

/-- Along the forward links a ring is passed once and then entered again. -/
theorem iterate_next_eq (h : IsRing L ↑(a :: l)) :
    List.iterate L.next (L.next a) (l.length + 1) = l ++ [a] := by
  have hchain := h.linked
  rw [Cycle.chain_coe_cons] at hchain
  have visit : ∀ (l : List Loc) (x : Loc), (x :: l).IsChain L.Joined →
      List.iterate L.next (L.next x) l.length = l := by
    intro l
    induction l with
    | nil => exact fun _ _ => rfl
    | cons y l ih =>
        intro x hx
        rw [List.isChain_cons_cons] at hx
        rw [List.length_cons, List.iterate, hx.1.1, ih y hx.2]
  have hvisit := visit (l ++ [a]) a hchain
  rwa [List.length_append, List.length_singleton] at hvisit

/-- Links outside the ring do not matter. -/
theorem congr (h : IsRing L c) (hnext : ∀ x ∈ c, L'.next x = L.next x)
    (hprev : ∀ x ∈ c, L'.prev x = L.prev x) : IsRing L' c := by
  refine ⟨h.nodup, ?_⟩
  have hl := h.linked
  induction c using Quotient.inductionOn' with
  | _ l =>
      cases l with
      | nil => trivial
      | cons a l =>
          have hmem : ∀ x ∈ a :: (l ++ [a]), x ∈ a :: l := by
            intro x hx
            simpa [or_comm] using hx
          refine List.IsChain.imp_of_mem_imp (fun x y hx hy hxy => ?_) hl
          exact ⟨(hnext x (hmem x hx)).trans hxy.1, (hprev y (hmem y hy)).trans hxy.2⟩

variable [DecidableEq Loc]

/-- Insertion of `a` behind the member `p`. -/
theorem insert (h : IsRing L ↑(p :: l)) (ha : a ∉ p :: l)
    (hnext : ∀ x, L'.next x = if x = a then L.next p else if x = p then a else L.next x)
    (hprev : ∀ x, L'.prev x = if x = a then p else if x = L.next p then a else L.prev x) :
    IsRing L' ↑(p :: a :: l) := by
  obtain ⟨hpl, hl⟩ := h.nodup_cons
  simp only [List.mem_cons, not_or] at ha
  refine ⟨by simp [Ne.symm ha.1, ha.2, hpl, hl], ?_⟩
  obtain ⟨q, m, hqm⟩ : ∃ q m, l ++ [p] = q :: m := List.exists_cons_of_ne_nil (by simp)
  have hlinked := h.linked
  have hnodup : (q :: m).Nodup := by
    rw [← hqm, (List.perm_append_singleton p l).nodup_iff]
    exact List.nodup_cons.mpr ⟨hpl, hl⟩
  rw [Cycle.chain_coe_cons, hqm, List.isChain_cons_cons] at hlinked
  rw [Cycle.chain_coe_cons, List.cons_append, hqm, List.isChain_cons_cons, List.isChain_cons_cons]
  obtain ⟨⟨hpq, -⟩, hchain⟩ := hlinked
  have hmem : ∀ x ∈ q :: m, x ≠ a := by
    rw [← hqm]
    rintro x hx rfl
    rcases List.mem_append.mp hx with hx | hx
    · exact ha.2 hx
    · exact ha.1 (by simpa using hx)
  refine ⟨⟨?_, ?_⟩, ⟨?_, ?_⟩, ?_⟩
  · rw [hnext, if_neg (Ne.symm ha.1), if_pos rfl]
  · rw [hprev, if_pos rfl]
  · rw [hnext, if_pos rfl, hpq]
  · rw [hprev, if_neg (hmem q (by simp)), if_pos hpq.symm]
  · -- the links between the other members start neither at `p` nor end at its successor
    refine isChain_imp hchain fun x hx y hy hxy => ⟨?_, ?_⟩
    · have hxp : x ≠ p := by
        rintro rfl
        rw [← hqm, List.dropLast_concat] at hx
        exact hpl hx
      rw [hnext, if_neg (hmem x (List.mem_of_mem_dropLast hx)), if_neg hxp, hxy.1]
    · have hyq : y ≠ L.next p := by
        rintro rfl
        rw [hpq] at hy
        exact (List.nodup_cons.mp hnodup).1 hy
      rw [hprev, if_neg (hmem y (List.mem_of_mem_tail hy)), if_neg hyq, hxy.2]

/-- Removal of the member `a`. -/
theorem remove (h : IsRing L ↑(a :: b :: l))
    (hnext : ∀ x, x ≠ a → L'.next x = if x = L.prev a then L.next a else L.next x)
    (hprev : ∀ x, x ≠ a → L'.prev x = if x = L.next a then L.prev a else L.prev x) :
    IsRing L' ↑(b :: l) := by
  obtain ⟨hal, hl⟩ := h.nodup_cons
  have hb : L.next a = b := h.next_eq
  obtain ⟨m, z, hmz⟩ : ∃ m z, b :: l = m ++ [z] :=
    ⟨(b :: l).dropLast, (b :: l).getLast (by simp), (List.dropLast_append_getLast _).symm⟩
  have hz : L.prev a = z := by
    rw [h.prev_eq]
    simp [hmz]
  have hne : ∀ x ∈ b :: l, x ≠ a := by
    rintro x hx rfl
    exact hal hx
  have hlinked := h.linked
  rw [Cycle.chain_coe_cons, List.cons_append, List.isChain_cons_cons, ← List.cons_append,
    List.isChain_append] at hlinked
  obtain ⟨-, hchain, -⟩ := hlinked
  refine ⟨by simpa using hl, ?_⟩
  rw [Cycle.chain_coe_cons, ← List.cons_append, List.isChain_append]
  refine ⟨?_, .singleton b, ?_⟩
  · refine isChain_imp hchain fun x hx y hy hxy => ⟨?_, ?_⟩
    · have hxz : x ≠ L.prev a := by
        rintro rfl
        rw [hmz] at hl
        rw [hmz, List.dropLast_concat, hz] at hx
        exact (List.nodup_append.mp hl).2.2 z hx z (by simp) rfl
      rw [hnext x (hne x (List.mem_of_mem_dropLast hx)), if_neg hxz, hxy.1]
    · have hyb : y ≠ L.next a := by
        rintro rfl
        rw [hb] at hy
        exact (List.nodup_cons.mp hl).1 hy
      rw [hprev y (hne y (List.mem_of_mem_tail hy)), if_neg hyb, hxy.2]
  · intro x hx y hy
    have hxz : x = z := by simpa [hmz] using hx.symm
    have hyb : y = b := by simpa using hy.symm
    subst hxz hyb
    have hzmem : x ∈ y :: l := by simp [hmz]
    refine ⟨?_, ?_⟩
    · rw [hnext x (hne x hzmem), if_pos hz.symm, hb]
    · rw [hprev y (hne y (by simp)), if_pos hb.symm, hz]

end IsRing

end LinkedRing
