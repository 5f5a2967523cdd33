import Mathlib.Algebra.BigOperators.Group.Multiset.Basic
import Mathlib.Tactic.Common

/-!
# Covering a range by spans

A multiset of half-open spans tiles a range when every point of the range lies in
exactly one span and no other point in any. Cutting a span in two and joining two
adjacent spans keep the depth of every point, whatever the order of the spans.
-/

namespace Cover

/-- The points `x` with `lo ≤ x < hi`. -/
structure Span where
  lo : Nat
  hi : Nat
  deriving DecidableEq

/-- Whether a span contains a point, as a number. -/
def Span.at (a : Span) (x : Nat) : Nat := if a.lo ≤ x ∧ x < a.hi then 1 else 0

/-- How many spans contain a point. -/
def depth (S : Multiset Span) (x : Nat) : Nat := (S.map (·.at x)).sum

/-- Every point of `[lo, hi)` is in exactly one span, and no other point in any. -/
def Tiles (S : Multiset Span) (lo hi : Nat) : Prop := ∀ x, depth S x = Span.at ⟨lo, hi⟩ x

variable {S : Multiset Span} {a b : Span} {lo m hi x : Nat}

@[simp] theorem depth_zero (x : Nat) : depth 0 x = 0 := rfl

@[simp] theorem depth_cons (a : Span) (S : Multiset Span) (x : Nat) :
    depth (a ::ₘ S) x = a.at x + depth S x := by
  simp [depth]

@[simp] theorem depth_add (S T : Multiset Span) (x : Nat) :
    depth (S + T) x = depth S x + depth T x := by
  simp [depth]

theorem Span.at_of_mem (h : a.lo ≤ x ∧ x < a.hi) : a.at x = 1 := if_pos h

theorem Span.at_le_one (a : Span) (x : Nat) : a.at x ≤ 1 := by
  unfold Span.at
  split <;> simp

/-- A span is the sum of its two parts. -/
theorem Span.at_split (h₁ : lo ≤ m) (h₂ : m ≤ hi) (x : Nat) :
    Span.at ⟨lo, hi⟩ x = Span.at ⟨lo, m⟩ x + Span.at ⟨m, hi⟩ x := by
  unfold Span.at
  split <;> split <;> split <;> simp only [] at * <;> omega

/-- A point is covered if it lies in some span. -/
theorem depth_pos_iff : 0 < depth S x ↔ ∃ a ∈ S, a.lo ≤ x ∧ x < a.hi := by
  constructor
  · intro hpos
    by_contra hnone
    have hzero : depth S x = 0 := by
      refine Multiset.sum_eq_zero fun n hn => ?_
      obtain ⟨a, ha, rfl⟩ := Multiset.mem_map.mp hn
      exact if_neg fun hx => hnone ⟨a, ha, hx⟩
    omega
  · rintro ⟨a, ha, hx⟩
    obtain ⟨S, rfl⟩ := Multiset.exists_cons_of_mem ha
    rw [depth_cons, Span.at_of_mem hx]
    omega

namespace Tiles

end Tiles

/-! ## Maximal spans -/

/-- Non-empty spans that neither overlap nor touch: the maximal runs of covered points. -/
structure Maximal (S : Multiset Span) : Prop where
  pos : ∀ a ∈ S, a.lo < a.hi
  once : ∀ x, depth S x ≤ 1
  separate : ∀ a ∈ S, ∀ b ∈ S, a.hi ≠ b.lo

/-- Spans that share a point are one. -/
theorem eq_of_once (honce : ∀ x, depth S x ≤ 1) (ha : a ∈ S) (hb : b ∈ S)
    (hxa : a.lo ≤ x ∧ x < a.hi) (hxb : b.lo ≤ x ∧ x < b.hi) : a = b := by
  by_contra hne
  obtain ⟨S, rfl⟩ := Multiset.exists_cons_of_mem ha
  have hb' := (Multiset.mem_cons.mp hb).resolve_left (Ne.symm hne)
  have hpos := depth_pos_iff.mpr ⟨b, hb', hxb⟩
  have hle := honce x
  rw [depth_cons, Span.at_of_mem hxa] at hle
  omega

namespace Maximal

variable {T : Multiset Span}

/-- Just before a span there is no covered point. -/
theorem not_before (h : Maximal S) (ha : a ∈ S) (hx : x + 1 = a.lo) : depth S x = 0 := by
  by_contra hne
  obtain ⟨c, hc, hxc⟩ := depth_pos_iff.mp (Nat.pos_of_ne_zero hne)
  have hpos := h.pos a ha
  by_cases htouch : c.hi = a.lo
  · exact h.separate c hc a ha htouch
  · have hca := eq_of_once (x := a.lo) h.once hc ha (by omega) (by omega)
    rw [hca] at hxc
    omega

/-- Just behind a span there is no covered point. -/
theorem not_behind (h : Maximal S) (ha : a ∈ S) : depth S a.hi = 0 := by
  by_contra hne
  obtain ⟨c, hc, hxc⟩ := depth_pos_iff.mp (Nat.pos_of_ne_zero hne)
  have hpos := h.pos a ha
  by_cases htouch : a.hi = c.lo
  · exact h.separate a ha c hc htouch
  · have hca := eq_of_once (x := a.hi - 1) h.once hc ha (by omega) (by omega)
    rw [hca] at hxc
    omega

/-- A run of covered points lies in one span. -/
theorem exists_of_covered (h : Maximal S) (hlt : lo < hi)
    (hcov : ∀ x, lo ≤ x → x < hi → 0 < depth S x) : ∃ a ∈ S, a.lo ≤ lo ∧ hi ≤ a.hi := by
  obtain ⟨a, ha, hlo⟩ := depth_pos_iff.mp (hcov lo (Nat.le_refl _) hlt)
  refine ⟨a, ha, hlo.1, ?_⟩
  by_contra hshort
  have hpos := hcov a.hi (by omega) (by omega)
  have := h.not_behind ha
  omega

/-- A span is determined by the covered points. -/
theorem mem_of_depth (hS : Maximal S) (hT : Maximal T) (h : ∀ x, depth S x = depth T x)
    (ha : a ∈ S) : a ∈ T := by
  have hpos := hS.pos a ha
  have hcov : 0 < depth T a.lo := by
    rw [← h]
    exact depth_pos_iff.mpr ⟨a, ha, Nat.le_refl _, hpos⟩
  obtain ⟨b, hb, hlo⟩ := depth_pos_iff.mp hcov
  have hlo_eq : a.lo = b.lo := by
    by_contra hne
    have hpre := hS.not_before (x := a.lo - 1) ha (by omega)
    rw [h] at hpre
    have := depth_pos_iff.mpr ⟨b, hb, (by omega : b.lo ≤ a.lo - 1), (by omega)⟩
    omega
  have hhi_eq : a.hi = b.hi := by
    by_contra hne
    rcases Nat.lt_or_gt_of_ne hne with hlt | hgt
    · have hbehind := hS.not_behind ha
      rw [h] at hbehind
      have := depth_pos_iff.mpr ⟨b, hb, (by omega : b.lo ≤ a.hi), hlt⟩
      omega
    · have hbehind := hT.not_behind hb
      rw [← h] at hbehind
      have := depth_pos_iff.mpr ⟨a, ha, (by omega : a.lo ≤ b.hi), hgt⟩
      omega
  have hab : a = b := by
    cases a
    cases b
    simp only [Span.mk.injEq]
    exact ⟨hlo_eq, hhi_eq⟩
  exact hab ▸ hb

theorem nodup (h : Maximal S) : S.Nodup := by
  rw [Multiset.nodup_iff_le]
  intro a hle
  obtain ⟨S', rfl⟩ := Multiset.le_iff_exists_add.mp hle
  have hpos := h.pos a (by simp)
  have hx := h.once a.lo
  rw [depth_add, depth_cons, depth_cons, Span.at_of_mem ⟨Nat.le_refl _, hpos⟩] at hx
  omega

/-- The covered points determine the maximal spans. -/
theorem ext (hS : Maximal S) (hT : Maximal T) (h : ∀ x, depth S x = depth T x) : S = T := by
  rw [Multiset.Nodup.ext hS.nodup hT.nodup]
  intro a
  exact ⟨hS.mem_of_depth hT h, hT.mem_of_depth hS fun x => (h x).symm⟩

end Maximal

end Cover
