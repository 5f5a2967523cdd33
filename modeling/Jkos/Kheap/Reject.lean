import Jkos.Kheap.Partition

/-!
# Headers that `kfree` rejects

`kfree` trusts the header in front of the pointer. Its checks on the trees turn down every
header whose range leaves the heap or meets a free block, whatever shape the overlap has,
as long as the end of the range is computed without a wrap-around. What they do to a range
that wraps is described exactly.
-/

namespace Jkos.Kheap

open Exec

variable {F F' : Multiset Block} {h : Heap} {b got blk : Block} {addr : Word}

/-- The block lies in the heap and meets no free block. -/
structure Returnable (F : Multiset Block) (blk : Block) : Prop where
  lo : kernelHeapBegin.toNat ≤ blk.start.toNat
  hi : blk.stop ≤ kernelHeapEnd.toNat
  apart : ∀ x, blk.start.toNat ≤ x → x < blk.stop → depthOf F x = 0

/-- `kfree` stopped before it put anything into the trees. -/
def Rejected (addr : Word) (F : Multiset Block) (e : Fault) (h : Heap) : Prop :=
  e = .invalidFree addr ∧ ∃ F' ≤ F, Frees h F' F'

theorem toNat_blockEnd (hfit : blk.stop < 2 ^ 32) : (blk.start + blk.size).toNat = blk.stop := by
  rw [BitVec.toNat_add]
  exact Nat.mod_eq_of_lt hfit

/-- The free block that contains an address. -/
theorem exists_of_depth {x : Nat} (hpos : depthOf F x ≠ 0) :
    ∃ b ∈ F, b.start.toNat ≤ x ∧ x < b.stop := by
  obtain ⟨a, ha, hx⟩ := Cover.depth_pos_iff.mp (Nat.pos_of_ne_zero hpos)
  obtain ⟨b, hb, rfl⟩ := Multiset.mem_map.mp ha
  exact ⟨b, hb, hx⟩

/-- After the first check, a free block that meets the range starts in it, and the second
search finds it or one before it. -/
theorem mergeBefore_overlap (hF : ∀ b ∈ F, b.Proper) (honce : ∀ x, depthOf F x ≤ 1)
    (hfit : blk.stop < 2 ^ 32) (hb : b ∈ F)
    (hgt : blk.start.toNat < b.stop) :
    Triple (Frees · F F) (mergeBefore addr blk)
      (fun r h => ∃ F' ≤ F, Frees h F' F' ∧ r.1.stop = blk.stop ∧ b ∈ F' ∧
        ¬ BlockStart.mk b < ⟨r.1⟩)
      (Rejected addr F) := by
  refine (mergeBefore_cases addr hF honce).weaken (fun _ h => h) ?_ ?_
  · rintro _ h (⟨got, F₀, rfl, hadj, -, rfl, hs⟩ | ⟨hbefore, rfl, hs⟩)
    · have hsum : got.start.toNat + got.size.toNat = blk.start.toNat := hadj
      have hsize : (blk.size + got.size).toNat = blk.size.toNat + got.size.toNat := by
        rw [BitVec.toNat_add]
        refine Nat.mod_eq_of_lt ?_
        rw [Block.stop] at hfit
        omega
      have hne : b ≠ got := by
        rintro rfl
        omega
      have hb₀ : b ∈ F₀ := (Multiset.mem_cons.mp hb).resolve_left hne
      refine ⟨F₀, Multiset.le_cons_self F₀ got, hs, ?_, hb₀, fun hless => hne ?_⟩
      · simp only [Block.stop, hsize]
        omega
      · -- a block that starts before `got` and ends behind it would be `got`
        have hpos := (hF got (Multiset.mem_cons_self _ _)).pos
        rw [BlockStart.lt_iff] at hless
        simp only [hsize] at hless
        refine eq_of_overlap (x := got.start.toNat) hb (Multiset.mem_cons_self _ _) honce ?_ ?_
        · omega
        · rw [Block.stop]
          omega
    · refine ⟨F, le_refl F, hs, rfl, hb, fun hless => ?_⟩
      have hlt := hbefore b hb (by
        rw [BlockStart.lt_iff] at hless
        rw [BlockStart.le_iff]
        simp only at hless
        omega)
      omega
  · rintro e h ⟨rfl, hs, -⟩
    exact ⟨rfl, F, le_refl F, hs⟩

/-- The second check catches a free block that starts in the range. -/
theorem mergeAfter_overlap {freeEnd : Word} (hfit : blk.stop < 2 ^ 32) (hb : b ∈ F)
    (hge : ¬ BlockStart.mk b < ⟨blk⟩) (hlt : b.start.toNat < blk.stop) :
    Triple (Frees · F F) (mergeAfter addr blk freeEnd) (fun _ _ => False) (Rejected addr F) := by
  refine (mergeAfter_cases addr freeEnd).weaken (fun _ h => h) ?_ ?_
  · rintro _ h (⟨got, F₀, rfl, hadj, -, hfirst, rfl, hs⟩ | ⟨hafter, rfl, hs⟩)
    · have hle := hfirst b hb hge
      rw [← hadj, BitVec.le_def, toNat_blockEnd hfit] at hle
      omega
    · have hless := hafter b hb hge
      rw [BitVec.lt_def, toNat_blockEnd hfit] at hless
      omega
  · rintro e h ⟨rfl, hs, -⟩
    exact ⟨rfl, F, le_refl F, hs⟩

/-- A range that does not wrap is turned down unless it may become free. -/
theorem release_rejects (hF : ∀ b ∈ F, b.Proper) (honce : ∀ x, depthOf F x ≤ 1)
    (hfit : blk.stop < 2 ^ 32) (hbad : ¬ Returnable F blk) :
    Triple (Frees · F F) (release addr blk) (fun _ _ => False) (Rejected addr F) := by
  refine triple_ite (fun _ => fun h hs => ⟨rfl, F, le_refl F, hs⟩) fun hrange => ?_
  rw [not_or, BitVec.not_lt, gt_iff_lt, BitVec.not_lt, BitVec.le_def, BitVec.le_def,
    toNat_blockEnd hfit] at hrange
  obtain ⟨x, hlo, hhi, hx⟩ : ∃ x, blk.start.toNat ≤ x ∧ x < blk.stop ∧ depthOf F x ≠ 0 := by
    by_contra hnone
    push Not at hnone
    exact hbad ⟨hrange.1, hrange.2, hnone⟩
  obtain ⟨b, hb, hbx⟩ := exists_of_depth hx
  refine triple_bind (mergeBefore_overlap hF honce hfit hb (by omega)) fun r => ?_
  rintro h ⟨F₁, hle, hs, hstop, hb₁, hge⟩
  have hreject : ∀ e h', Rejected addr F₁ e h' → Rejected addr F e h' :=
    fun e h' ⟨he, F₂, hle₂, hs₂⟩ => ⟨he, F₂, hle₂.trans hle, hs₂⟩
  refine Ends.bind (Q := fun _ _ => False) ?_ (fun _ _ h => h.elim)
  exact (mergeAfter_overlap (by rw [hstop]; exact hfit) hb₁ hge (by rw [hstop]; omega) h hs).mono
    (fun _ _ h => h) hreject

/-! ## Ranges that wrap -/

/-- The range passes the end of the address space, and its end as the code computes it
passes the first check. -/
structure Wraps (blk : Block) : Prop where
  lo : kernelHeapBegin.toNat ≤ blk.start.toNat
  beyond : 2 ^ 32 ≤ blk.stop
  hi : blk.stop - 2 ^ 32 ≤ kernelHeapEnd.toNat

theorem toNat_wrapped (hover : 2 ^ 32 ≤ blk.stop) :
    (blk.start + blk.size).toNat = blk.stop - 2 ^ 32 := by
  have hstart := blk.start.isLt
  have hsize := blk.size.isLt
  rw [BitVec.toNat_add]
  rw [Block.stop] at hover ⊢
  omega

/-- A free block contains the first address of the range. -/
def StartsFree (F : Multiset Block) (blk : Block) : Prop :=
  ∃ b ∈ F, b.start.toNat ≤ blk.start.toNat ∧ blk.start.toNat < b.stop

/-- The pool has one node left, and the range follows no free block. -/
def LastNode (F : Multiset Block) (blk : Block) : Prop :=
  F.card = 511 ∧ ∀ b ∈ F, b.stop ≠ blk.start.toNat

/-- Free blocks end in the heap, so those that start where the range does are smaller. -/
theorem le_of_starts (hover : 2 ^ 32 ≤ blk.stop) (hb : b.Proper)
    (hle : b.start.toNat ≤ blk.start.toNat) : BlockStart.mk b ≤ ⟨blk⟩ := by
  have hhi := hb.hi
  rw [Block.stop] at hover
  rw [BlockStart.le_iff]
  omega

theorem mergeBefore_startsFree (hF : ∀ b ∈ F, b.Proper) (honce : ∀ x, depthOf F x ≤ 1)
    (hover : 2 ^ 32 ≤ blk.stop) (hfree : StartsFree F blk) :
    Triple (Frees · F F) (mergeBefore addr blk) (fun _ _ => False) (Rejected addr F) := by
  obtain ⟨b, hb, hlo, hhi⟩ := hfree
  have hle := le_of_starts hover (hF b hb) hlo
  refine (mergeBefore_cases addr hF honce).weaken (fun _ h => h) ?_ ?_
  · rintro _ h (⟨got, F₀, -, -, hbefore, -, -⟩ | ⟨hbefore, -, -⟩)
    · have hstop := hbefore b hb hle
      omega
    · have hstop := hbefore b hb hle
      omega
  · rintro e h ⟨rfl, hs, -⟩
    exact ⟨rfl, F, le_refl F, hs⟩

/-- The range that goes on to the second search starts at its own start or at that of the
block before it, and ends where it did, below every free block behind it. -/
theorem mergeBefore_wraps (hF : ∀ b ∈ F, b.Proper) (honce : ∀ x, depthOf F x ≤ 1)
    (hover : 2 ^ 32 ≤ blk.stop) (hfree : ¬ StartsFree F blk) :
    Triple (Frees · F F) (mergeBefore addr blk)
      (fun r h => ∃ F', Frees h F' F' ∧ (F' = F ∧ (∀ b ∈ F, b.stop ≠ blk.start.toNat) ∨
          F'.card + 1 = F.card ∧ ∃ b ∈ F, b.stop = blk.start.toNat) ∧
        r.1.start + r.1.size = blk.start + blk.size ∧
        ∀ b ∈ F', ¬ BlockStart.mk b < ⟨r.1⟩ → blk.start.toNat ≤ b.start.toNat)
      (fun _ _ => False) := by
  have hfree : ∀ b ∈ F, b.start.toNat ≤ blk.start.toNat → b.stop ≤ blk.start.toNat :=
    fun b hb hle => Nat.not_lt.mp fun hlt => hfree ⟨b, hb, hle, hlt⟩
  refine (mergeBefore_cases addr hF honce).weaken (fun _ h => h) ?_ ?_
  · rintro _ h (⟨got, F₀, rfl, hadj, -, rfl, hs⟩ | ⟨hbefore, rfl, hs⟩)
    · refine ⟨F₀, hs, .inr ⟨by rw [Multiset.card_cons], got, Multiset.mem_cons_self _ _, hadj⟩, ?_,
        fun b hb hge => ?_⟩
      · have hend : got.start + got.size = blk.start := by
          apply Word.ext_toNat
          rw [(hF got (Multiset.mem_cons_self _ _)).toNat_end]
          exact hadj
        rw [← hend, BitVec.add_assoc, BitVec.add_comm blk.size]
      · -- a block that starts in `got` would overlap it
        have hpos := (hF b (Multiset.mem_cons_of_mem hb)).pos
        rw [BlockStart.lt_iff] at hge
        simp only at hge
        by_contra hlt
        have hone := honce b.start.toNat
        rw [depthOf_cons, Cover.Span.at_of_mem (a := got.span) ⟨by simp only [Block.span]; omega, by
          change b.start.toNat < got.stop
          omega⟩] at hone
        have hpos' : 0 < depthOf F₀ b.start.toNat := depthOf_pos_of_mem hb (Nat.le_refl _) (by
          rw [Block.stop]
          omega)
        omega
    · refine ⟨F, hs, .inl ⟨rfl, fun b hb e => ?_⟩, rfl, fun b hb hge => ?_⟩
      · have hpos := (hF b hb).pos
        have hlt := hbefore b hb (le_of_starts hover (hF b hb) (by rw [← e, Block.stop]; omega))
        omega
      · rw [BlockStart.lt_iff] at hge
        simp only at hge
        omega
  · rintro e h ⟨-, -, b, hb, hle, hlt⟩
    rw [BlockStart.le_iff] at hle
    have hstop := hfree b hb (by omega)
    omega

/-- Behind the end that wrapped there is nothing to find fault with or to merge. -/
theorem mergeAfter_wraps {freeEnd : Word}
    (hafter : ∀ b ∈ F, ¬ BlockStart.mk b < ⟨blk⟩ → blk.start + blk.size < b.start) :
    Triple (Frees · F F) (mergeAfter addr blk freeEnd)
      (fun r h => r = (blk, freeEnd) ∧ Frees h F F) (fun _ _ => False) := by
  refine (mergeAfter_cases addr freeEnd).weaken (fun _ h => h) ?_ ?_
  · rintro _ h (⟨got, F₀, rfl, hadj, hge, -, -, -⟩ | ⟨-, rfl, hs⟩)
    · have hlt := hafter got (Multiset.mem_cons_self _ _) hge
      rw [hadj] at hlt
      exact absurd hlt (BitVec.lt_irrefl _)
    · exact ⟨rfl, hs⟩
  · rintro e h ⟨-, -, b, hb, hge, hlt⟩
    exact absurd (BitVec.lt_trans hlt (hafter b hb hge)) (BitVec.lt_irrefl _)

theorem Wraps.passes (h : Wraps blk) :
    ¬ (blk.start < kernelHeapBegin ∨ blk.start + blk.size > kernelHeapEnd) := by
  have hlo := h.lo
  have hhi := h.hi
  rw [gt_iff_lt, BitVec.lt_def, BitVec.lt_def, toNat_wrapped h.beyond]
  omega

theorem wraps_of_passes (hover : 2 ^ 32 ≤ blk.stop)
    (h : ¬ (blk.start < kernelHeapBegin ∨ blk.start + blk.size > kernelHeapEnd)) : Wraps blk := by
  rw [not_or, gt_iff_lt, BitVec.lt_def, BitVec.lt_def, Nat.not_lt, Nat.not_lt,
    toNat_wrapped hover] at h
  exact ⟨h.1, hover, h.2⟩

/-- `release` up to the insertions, for a range that wraps and starts in no free block. -/
theorem release_wraps {Q : Word × Word → Heap → Prop} {E : Fault → Heap → Prop}
    (hF : ∀ b ∈ F, b.Proper) (honce : ∀ x, depthOf F x ≤ 1) (hwraps : Wraps blk)
    (hfree : ¬ StartsFree F blk) (hs : Frees h F F)
    (hinsert : ∀ F' (m : Block) (range : Word × Word),
      (F' = F ∧ (∀ b ∈ F, b.stop ≠ blk.start.toNat) ∨
        F'.card + 1 = F.card ∧ ∃ b ∈ F, b.stop = blk.start.toNat) →
      Triple (Frees · F' F') (do
        treeStart.insert ⟨m⟩
        treeSize.insert ⟨m⟩
        pure range) Q E) :
    Ends (release addr blk) h Q E := by
  rw [release, if_neg hwraps.passes]
  refine Ends.bind ((mergeBefore_wraps hF honce hwraps.beyond hfree h hs).mono (fun _ _ h => h)
    (fun _ _ h => h.elim)) ?_
  rintro ⟨m, freeStart⟩ h₁ ⟨F', hs₁, hcard, hend, hge⟩
  have hafter : ∀ b ∈ F', ¬ BlockStart.mk b < ⟨m⟩ → m.start + m.size < b.start := by
    intro b hb hlt
    have hle := hge b hb hlt
    have hover := hwraps.beyond
    have hsize := blk.size.isLt
    rw [hend, BitVec.lt_def, toNat_wrapped hover]
    rw [Block.stop] at hover ⊢
    omega
  refine Ends.bind ((mergeAfter_wraps hafter h₁ hs₁).mono (fun _ _ h => h)
    (fun _ _ h => h.elim)) ?_
  rintro ⟨m', freeEnd⟩ h₂ ⟨heq, hs₂⟩
  exact hinsert F' m' (freeStart, freeEnd) hcard h₂ hs₂

/-- A range that wraps becomes free, unless one of the other checks stops it. -/
theorem release_accepts (hF : ∀ b ∈ F, b.Proper) (honce : ∀ x, depthOf F x ≤ 1)
    (hwraps : Wraps blk) (hfree : ¬ StartsFree F blk) (hlast : ¬ LastNode F blk) :
    Triple (Frees · F F) (release addr blk) (fun _ _ => True) (fun _ _ => False) := by
  intro h hs
  refine release_wraps hF honce hwraps hfree hs fun F' m range hcard => ?_
  have hle := hs.card_le
  have hroom : F'.card ≠ 511 := by
    obtain ⟨rfl, hnone⟩ | ⟨hcard, -⟩ := hcard
    · exact fun e => hlast ⟨e, hnone⟩
    · omega
  refine triple_bind (insertStart_room m (by omega)) fun _ => triple_bind (insertSize_room m ?_)
    fun _ => fun _ _ => trivial
  rw [Multiset.card_cons]
  omega

theorem release_stops (hF : ∀ b ∈ F, b.Proper) (honce : ∀ x, depthOf F x ≤ 1)
    (hwraps : Wraps blk) (h : StartsFree F blk ∨ LastNode F blk) :
    Triple (Frees · F F) (release addr blk) (fun _ _ => False) (fun e _ => e ≠ .diverge) := by
  intro h₀ hs
  by_cases hfree : StartsFree F blk
  · rw [release, if_neg hwraps.passes]
    refine Ends.bind ((mergeBefore_startsFree hF honce hwraps.beyond hfree h₀ hs).mono
      (fun _ _ h => h) ?_) fun _ _ h => h.elim
    rintro e h ⟨rfl, -⟩
    exact fun e => Fault.noConfusion e
  · obtain ⟨hcard, hnone⟩ := h.resolve_left hfree
    refine release_wraps hF honce hwraps hfree hs fun F' m range hcase => ?_
    obtain ⟨rfl, -⟩ | ⟨-, b, hb, hadj⟩ := hcase
    · refine triple_bind ((insertStart_room m (by omega)).weaken (fun _ h => h) (fun _ _ h => h)
        (fun _ _ h => h.elim)) fun _ => triple_bind ((insertSize_full m ?_).weaken (fun _ h => h)
          (fun _ _ h => h) ?_) fun _ => fun _ h => h.elim
      · rw [Multiset.card_cons]
        omega
      · rintro e h rfl
        exact fun e => Fault.noConfusion e
    · exact absurd hadj (hnone b hb)

end Jkos.Kheap
