import Jkos.Interrupt.Table

/-!
# The segments

`init_gdt` builds a flat memory for the kernel and for user mode, and a segment for the TSS
that names the stack of the kernel. The descriptors are read back here as the processor does.
-/

namespace Jkos.Interrupt

open Syscall

/-- `GDT_entry_t`. -/
structure GdtEntry where
  limitLow : BitVec 16
  baseLow : BitVec 16
  baseMiddle : Byte
  access : Byte
  limitHighAndFlag : Byte
  baseHigh : Byte

/-- `GDT_entry_t::set`. -/
def GdtEntry.set (base limit : Word) (access flag : Byte) : GdtEntry where
  baseLow := (base &&& 0xFFFF).setWidth 16
  baseMiddle := ((base >>> 16) &&& 0xFF).setWidth 8
  baseHigh := ((base >>> 24) &&& 0xFF).setWidth 8
  limitLow := (limit &&& 0xFFFF).setWidth 16
  limitHighAndFlag :=
    (((limit >>> 16) &&& (0xF : Word)) ||| ((flag.setWidth 32 &&& (0xF : Word)) <<< 4)).setWidth 8
  access := access

/-- `USER_CODE_SELECTOR`. -/
def userCodeSelector : BitVec 16 := 0x18

/-- `USER_DATA_SELECTOR`. -/
def userDataSelector : BitVec 16 := 0x20

/-- `TSS_DESCRIPTOR_SELECTOR`. -/
def tssDescriptorSelector : BitVec 16 := 0x28

/-- `sizeof(TSS_entry_t)`. -/
def sizeofTss : Word := 104

/-- The table of `init_gdt`, with the TSS at an address. -/
def initGdt (tss : Word) : List GdtEntry :=
  [.set 0 0 0 0,
    .set 0 0xFFFFFFFF 0b10011010 0b1100,
    .set 0 0xFFFFFFFF 0b10010010 0b1100,
    .set 0 0xFFFFFFFF 0b11111010 0b1100,
    .set 0 0xFFFFFFFF 0b11110010 0b1100,
    .set tss (tss + sizeofTss) 0b11101001 0]

namespace GdtEntry

/-- The first address of the segment. -/
def base (g : GdtEntry) : Word := (g.baseHigh ++ g.baseMiddle ++ g.baseLow : BitVec (8 + 8 + 16))

/-- The limit as it is stored. -/
def rawLimit (g : GdtEntry) : BitVec 20 :=
  (g.limitHighAndFlag.setWidth 4 ++ g.limitLow : BitVec (4 + 16))

/-- The flags G, D/B, L and AVL. -/
def flag (g : GdtEntry) : BitVec 4 := (g.limitHighAndFlag >>> 4).setWidth 4

/-- The last offset of the segment, counted in pages where G is set. -/
def limit (g : GdtEntry) : Word :=
  if g.flag.getLsbD 3 then (g.rawLimit.setWidth 32 <<< 12) ||| 0xFFF else g.rawLimit.setWidth 32

def dpl (g : GdtEntry) : Nat := ((g.access >>> 5) &&& 3).toNat

def present (g : GdtEntry) : Bool := g.access.getLsbD 7

/-- The S bit and the type of the segment. -/
def kind (g : GdtEntry) : BitVec 5 := g.access.setWidth 5

/-- The D/B bit. -/
def big (g : GdtEntry) : Bool := g.flag.getLsbD 2

variable (b l : Word) (a f : Byte)

theorem base_set : (set b l a f).base = b := by
  simp only [base, set]
  rw [setWidth_and_mask 16 b 0xFFFF (by decide) rfl,
    setWidth_and_mask 8 (b >>> 16) 0xFF (by decide) rfl,
    setWidth_and_mask 8 (b >>> 24) 0xFF (by decide) rfl]
  apply BitVec.eq_of_getLsbD_eq
  intro i hi
  simp only [BitVec.getLsbD_append, BitVec.getLsbD_setWidth, BitVec.getLsbD_ushiftRight]
  grind

/-- The two halves of `limit_high_and_flag`. -/
theorem getLsbD_limitHighAndFlag {i : Nat} (hi : i < 8) :
    (set b l a f).limitHighAndFlag.getLsbD i =
      if i < 4 then l.getLsbD (16 + i) else f.getLsbD (i - 4) := by
  have hmask : ∀ i : Fin 8, (0xF : BitVec 32).getLsbD i = decide (i.val < 4) := by decide
  have hbit : (0xF : BitVec 32).getLsbD i = decide (i < 4) := hmask ⟨i, hi⟩
  have hbit' : (0xF : BitVec 32).getLsbD (i - 4) = decide (i - 4 < 4) := hmask ⟨i - 4, by omega⟩
  rw [set, BitVec.getLsbD_setWidth, BitVec.getLsbD_or, BitVec.getLsbD_and,
    BitVec.getLsbD_ushiftRight, hbit, BitVec.getLsbD_shiftLeft, BitVec.getLsbD_and,
    BitVec.getLsbD_setWidth, hbit']
  by_cases h : i < 4
  · simp [h, hi]
  · simp [h, hi, show i < 32 by omega, show i - 4 < 32 by omega, show i - 4 < 4 by omega]

theorem rawLimit_set : (set b l a f).rawLimit = l.setWidth 20 := by
  have hlow : (set b l a f).limitLow = l.setWidth 16 :=
    setWidth_and_mask 16 l 0xFFFF (by decide) rfl
  apply BitVec.eq_of_getLsbD_eq
  intro i hi
  rw [rawLimit, BitVec.getLsbD_append, BitVec.getLsbD_setWidth, BitVec.getLsbD_setWidth, hlow,
    BitVec.getLsbD_setWidth]
  split
  · next h => simp [h, hi]
  · next h =>
      rw [getLsbD_limitHighAndFlag b l a f (by omega), if_pos (by omega),
        show 16 + (i - 16) = i by omega]
      simp [hi, show i - 16 < 4 by omega]

theorem flag_set : (set b l a f).flag = f.setWidth 4 := by
  apply BitVec.eq_of_getLsbD_eq
  intro i hi
  rw [flag, BitVec.getLsbD_setWidth, BitVec.getLsbD_ushiftRight, BitVec.getLsbD_setWidth,
    getLsbD_limitHighAndFlag b l a f (by omega), if_neg (by omega), Nat.add_sub_cancel_left]

end GdtEntry

/-- The descriptor that a selector names. -/
def descriptor (gdt : List GdtEntry) (selector : BitVec 16) : Option GdtEntry :=
  gdt[(selector >>> 3).toNat]?

/-- Code that can be read, and does not conform. -/
def codeKind : BitVec 5 := 0b11010

/-- Data that can be written, and grows upwards. -/
def dataKind : BitVec 5 := 0b10010

/-- A 32-bit TSS that is not in use. -/
def tssKind : BitVec 5 := 0b01001

/-- A 32-bit segment that is all of memory. -/
structure Flat (g : GdtEntry) (kind : BitVec 5) (dpl : Nat) : Prop where
  present : g.present = true
  base : g.base = 0
  limit : g.limit = 0xFFFFFFFF
  big : g.big = true
  kind : g.kind = kind
  dpl : g.dpl = dpl

theorem flat_set {a : Byte} (h : a.getLsbD 7 = true) :
    Flat (.set 0 0xFFFFFFFF a 0b1100) (a.setWidth 5) ((a >>> 5) &&& 3).toNat := by
  refine ⟨h, GdtEntry.base_set 0 _ a _, ?_, ?_, rfl, rfl⟩
  · rw [GdtEntry.limit, GdtEntry.flag_set, GdtEntry.rawLimit_set]
    decide
  · rw [GdtEntry.big, GdtEntry.flag_set]
    decide

/-- The limit of the segment for a TSS. -/
theorem limit_tss (tss : Word) (a : Byte) :
    (GdtEntry.set tss (tss + sizeofTss) a 0).limit.toNat = (tss.toNat + 104) % 2 ^ 20 := by
  rw [GdtEntry.limit, GdtEntry.flag_set, if_neg (by decide), GdtEntry.rawLimit_set, sizeofTss]
  have hsize : (104 : Word).toNat = 104 := rfl
  simp only [BitVec.toNat_setWidth, BitVec.toNat_add, hsize]
  omega

/-- The kernel and user mode have code and data segments of all memory, at their privileges. The
segment for the TSS starts there wherever the linker puts it. It is given the end of the TSS for
its limit, of which the upper bits are lost, so it contains the TSS unless the address behind it
lies in another megabyte than its beginning; a TSS of which one byte alone lies in the lower one
is contained again. -/
theorem initGdt_segments (tss : Word) :
    (∀ x ∈ [(kernelCodeSelector, codeKind, 0), (kernelDataSelector, dataKind, 0),
        (userCodeSelector, codeKind, 3), (userDataSelector, dataKind, 3)],
      ∃ g, descriptor (initGdt tss) x.1 = some g ∧ Flat g x.2.1 x.2.2) ∧
    ∃ g, descriptor (initGdt tss) tssDescriptorSelector = some g ∧ g.present = true ∧
      g.kind = tssKind ∧ g.base = tss ∧
      (sizeofTss - 1 ≤ g.limit ↔
        tss.toNat % 2 ^ 20 + 104 < 2 ^ 20 ∨ tss.toNat % 2 ^ 20 = 2 ^ 20 - 1) := by
  have hpresent : (0b11101001 : Byte).getLsbD 7 = true := by decide
  have hkind : (0b11101001 : Byte).setWidth 5 = tssKind := by decide
  refine ⟨?_, _, rfl, hpresent, hkind, GdtEntry.base_set tss _ _ _, ?_⟩
  · simp only [List.forall_mem_cons, List.not_mem_nil, false_implies, implies_true, and_true]
    exact ⟨⟨_, rfl, flat_set rfl⟩, ⟨_, rfl, flat_set rfl⟩, ⟨_, rfl, flat_set rfl⟩,
      ⟨_, rfl, flat_set rfl⟩⟩
  · rw [BitVec.le_def, limit_tss]
    change 103 ≤ _ ↔ _
    omega

end Jkos.Interrupt
