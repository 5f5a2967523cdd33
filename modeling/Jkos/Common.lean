import Jkos.Lib.Exec
import Jkos.Word

/-!
# Constants and failures of the kernel

The parts of `common.h` that the memory subsystem uses, and the ways in which the
kernel stops.
-/

namespace Jkos

/-- `KERNEL_STACK_POS`: the first address above the kernel stack. -/
def kernelStackPos : Word := 0xFFFFF000

/-- `KERNEL_STACK_SIZE`. -/
def kernelStackSize : Word := 4 * 1024

/-- `KERNEL_HEAP_END`. -/
def kernelHeapEnd : Word := (kernelStackPos - kernelStackSize) &&& 0xFFC00000

/-- `KERNEL_HEAP_BEGIN`. -/
def kernelHeapBegin : Word := kernelHeapEnd - 256 * 1024 * 1024

/-- Round an address up to a multiple of `2 ^ palign`. -/
def getAligned (addr : Word) (palign : Nat) : Word :=
  if addr = 0 then 0 else (((addr - 1) >>> palign) + 1) <<< palign

/-- `max` on `uint32_t`. -/
def Word.max (a b : Word) : Word := if a > b then a else b

/-- `min` on `uint32_t`. -/
def Word.min (a b : Word) : Word := if a < b then a else b

/-- The page that contains an address, `addr & 0xFFFFF000`. -/
def pageOf (addr : Word) : Word := addr &&& 0xFFFFF000

/-- Why the kernel stopped. -/
inductive Fault where
  /-- A `kassert` failed. -/
  | assertion
  /-- `panic("no free frame")`. -/
  | noFreeFrame
  /-- `panic("kernel runs out of memory")`. -/
  | outOfMemory
  /-- `panic("run out of kernel heap")`: the pool of tree nodes is used up. -/
  | outOfNodes
  /-- `panic("trting to free invalid memory: addr=%p", addr)`. -/
  | invalidFree (addr : Word)
  /-- `panic("page fault")`, after the report of the address and the error code. -/
  | pageFault (addr errCode : Word)
  /-- A loop that never ends. -/
  | diverge
  deriving DecidableEq

/-- The kernel stopped because memory of some kind was used up. -/
def Fault.Exhausted : Fault → Prop
  | .noFreeFrame | .outOfMemory | .outOfNodes => True
  | _ => False

theorem kernelHeapBegin_eq : kernelHeapBegin = 0xEFC00000 := by decide

theorem kernelHeapEnd_eq : kernelHeapEnd = 0xFFC00000 := by decide

/-! ## Rounding -/

theorem pageMask_getElem : ∀ i : Fin 32, (0xFFFFF000 : Word)[i] = decide (12 ≤ i.val) := by
  decide

theorem pageOf_eq (addr : Word) : pageOf addr = (addr >>> 12) <<< 12 := by
  ext i hi
  have hmask := pageMask_getElem ⟨i, hi⟩
  simp only [Fin.getElem_fin] at hmask
  rw [pageOf, BitVec.getElem_and, hmask, BitVec.getElem_shiftLeft, BitVec.getElem_ushiftRight]
  by_cases h : i < 12
  · simp [h, Nat.not_le.mpr h]
  · have hle : 12 ≤ i := Nat.not_lt.mp h
    simp [h, hle, Nat.add_sub_cancel' hle, BitVec.getLsbD_eq_getElem hi]

theorem toNat_pageOf (addr : Word) : (pageOf addr).toNat = addr.toNat / 4096 * 4096 := by
  have hlt := addr.isLt
  rw [pageOf_eq, BitVec.toNat_shiftLeft, BitVec.toNat_ushiftRight, Nat.shiftLeft_eq,
    Nat.shiftRight_eq_div_pow]
  exact Nat.mod_eq_of_lt (by omega)

theorem pageOf_pageOf (a : Word) : pageOf (pageOf a) = pageOf a := by
  apply Word.ext_toNat
  rw [toNat_pageOf, toNat_pageOf, Nat.mul_div_cancel _ (by decide)]

/-- Rounding up to a page gives the beginning of a page. -/
theorem pageOf_getAligned (addr : Word) : pageOf (getAligned addr 12) = getAligned addr 12 := by
  rw [getAligned]
  split
  · rfl
  · apply Word.ext_toNat
    rw [toNat_pageOf, BitVec.toNat_shiftLeft, Nat.shiftLeft_eq]
    omega

/-- The least multiple of `2 ^ palign` that is not below `n`. -/
def alignUp (n palign : Nat) : Nat := (n + 2 ^ palign - 1) / 2 ^ palign * 2 ^ palign

theorem alignUp_bounds (n palign : Nat) :
    n ≤ alignUp n palign ∧ alignUp n palign < n + 2 ^ palign ∧ 2 ^ palign ∣ alignUp n palign := by
  have hpos : 0 < 2 ^ palign := Nat.two_pow_pos palign
  have hlt := Nat.lt_div_mul_add hpos (a := n + 2 ^ palign - 1)
  have hle := Nat.div_mul_le_self (n + 2 ^ palign - 1) (2 ^ palign)
  refine ⟨?_, ?_, Nat.dvd_mul_left _ _⟩
  · rw [alignUp]
    omega
  · rw [alignUp]
    omega

/-- No multiple lies between a number and the number rounded up. -/
theorem alignUp_le {n m palign : Nat} (hle : n ≤ m) (hdvd : 2 ^ palign ∣ m) :
    alignUp n palign ≤ m := by
  obtain ⟨k, rfl⟩ := hdvd
  have hpos : 0 < 2 ^ palign := Nat.two_pow_pos palign
  have hquot : (n + 2 ^ palign - 1) / 2 ^ palign < k + 1 := by
    rw [Nat.div_lt_iff_lt_mul hpos, Nat.add_mul, Nat.mul_comm k]
    omega
  rw [alignUp, Nat.mul_comm]
  exact Nat.mul_le_mul_left _ (Nat.lt_succ_iff.mp hquot)

/-- Rounding up, modulo the size of the address space. -/
theorem toNat_getAligned_mod (addr : Word) (palign : Nat) :
    (getAligned addr palign).toNat = alignUp addr.toNat palign % 2 ^ 32 := by
  have hpos : 0 < 2 ^ palign := Nat.two_pow_pos palign
  rw [getAligned]
  split
  · next hzero =>
      have hdiv : (2 ^ palign - 1) / 2 ^ palign = 0 := Nat.div_eq_of_lt (by omega)
      simp [hzero, alignUp, hdiv]
  · next hne =>
      have hlt := addr.isLt
      have hge : 1 ≤ addr.toNat := by
        rcases Nat.eq_zero_or_pos addr.toNat with h0 | h0
        · exact absurd (BitVec.eq_of_toNat_eq h0) hne
        · exact h0
      have hpred : (addr - 1).toNat = addr.toNat - 1 := by
        rw [BitVec.toNat_sub_of_le (by rw [BitVec.le_def]; exact hge)]
        rfl
      have hquot : (addr.toNat - 1) / 2 ^ palign + 1 =
          (addr.toNat + 2 ^ palign - 1) / 2 ^ palign := by
        rw [show addr.toNat + 2 ^ palign - 1 = addr.toNat - 1 + 2 ^ palign by omega,
          Nat.add_div_right _ hpos]
      have hsmall : (addr.toNat - 1) / 2 ^ palign ≤ addr.toNat - 1 := Nat.div_le_self _ _
      have hsucc : (((addr - 1) >>> palign) + 1).toNat =
          (addr.toNat + 2 ^ palign - 1) / 2 ^ palign := by
        rw [BitVec.toNat_add, BitVec.toNat_ushiftRight, hpred, Nat.shiftRight_eq_div_pow]
        change ((addr.toNat - 1) / 2 ^ palign + 1) % 2 ^ 32 = _
        rw [← hquot]
        exact Nat.mod_eq_of_lt (by omega)
      rw [BitVec.toNat_shiftLeft, hsucc, Nat.shiftLeft_eq, alignUp]

/-- Rounding up, as long as the next multiple is representable. -/
theorem toNat_getAligned {addr : Word} {palign : Nat} (h : addr.toNat + 2 ^ palign ≤ 2 ^ 32) :
    (getAligned addr palign).toNat = (addr.toNat + 2 ^ palign - 1) / 2 ^ palign * 2 ^ palign := by
  have hlt := (alignUp_bounds addr.toNat palign).2.1
  rw [toNat_getAligned_mod, Nat.mod_eq_of_lt (by omega), alignUp]

end Jkos
