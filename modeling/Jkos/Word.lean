import Mathlib.Data.BitVec
import Mathlib.Tactic.Common

/-!
# Machine words of the kernel

The kernel is built for i386: `uint32_t`, `size_t` and every pointer are 32-bit
words whose arithmetic wraps. A loop that follows pointers visits each address at
most once unless it runs forever, so `loopBound` iterations are enough for every
loop that terminates; running out of them models non-termination.
-/

namespace Jkos

/-- `uint32_t` and every pointer type. -/
abbrev Word := BitVec 32

/-- `uint8_t`. -/
abbrev Byte := BitVec 8

/-- The null pointer. -/
abbrev null : Word := 0

/-- More iterations than any terminating loop over 32-bit addresses can take. -/
def loopBound : Nat := 2 ^ 32

/-- An address on an even byte boundary, the contract of the node allocators. -/
def IsEven (p : Word) : Prop := p.getLsbD 0 = false

instance (p : Word) : Decidable (IsEven p) := inferInstanceAs (Decidable (_ = _))

theorem Word.ext_toNat {a b : Word} (h : a.toNat = b.toNat) : a = b :=
  BitVec.eq_of_toNat_eq h

/-- Pairwise distinct words, none of them `q`, are fewer than `loopBound`. -/
theorem length_lt_loopBound {l : List Word} {q : Word} (hl : l.Nodup) (hq : q ∉ l) :
    l.length < loopBound := by
  have nodup : ((q :: l).map BitVec.toFin).Nodup := by
    apply List.Nodup.map
    · intro a b hab
      exact BitVec.eq_of_toFin_eq hab
    · exact List.nodup_cons.mpr ⟨hq, hl⟩
  have bound := nodup.length_le_card
  simp only [List.length_map, List.length_cons, Fintype.card_fin] at bound
  exact bound

end Jkos
