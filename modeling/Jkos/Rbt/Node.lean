import Jkos.Word

/-!
# Nodes of the red-black tree template

A node packs its parent pointer and its colour into one word: bit 0 is the colour
and the allocators only return even addresses. The lemmas below are all that the
rest of the development knows about the packing.
-/

namespace Jkos.Rbt

universe u

/-- `Rbt<Key_t>::Node`, with the `size` field of `RBT_SIZE`. `ch` is indexed by
the same 0/1 values as in the source: `false` is left, `true` is right. -/
structure Node (Key : Type u) where
  parAndColor : Word
  size : Int
  ch : Bool → Word
  key : Key

namespace Node

variable {Key : Type u}

def isRed (n : Node Key) : Bool := !(n.parAndColor &&& 1).getLsbD 0

def isBlack (n : Node Key) : Bool := (n.parAndColor &&& 1).getLsbD 0

def setRed (n : Node Key) : Node Key :=
  { n with parAndColor := n.parAndColor &&& ~~~1 }

def setBlack (n : Node Key) : Node Key :=
  { n with parAndColor := n.parAndColor ||| 1 }

/-- `copy_color`; `src` is the argument the source calls `from`. -/
def copyColor (n src : Node Key) : Node Key :=
  { n with parAndColor := (n.parAndColor &&& ~~~1) ||| (src.parAndColor &&& 1) }

def getPar (n : Node Key) : Word := n.parAndColor &&& ~~~1

def copyPar (n src : Node Key) : Node Key :=
  { n with parAndColor := (n.parAndColor &&& 1) ||| (src.parAndColor &&& ~~~1) }

/-- The new parent is or-ed in whole, so an odd `par` would also set the colour. -/
def setPar (n : Node Key) (par : Word) : Node Key :=
  { n with parAndColor := (n.parAndColor &&& 1) ||| par }

def setCh (n : Node Key) (i : Bool) (p : Word) : Node Key :=
  { n with ch := fun j => if j = i then p else n.ch j }

def setSize (n : Node Key) (size : Int) : Node Key := { n with size := size }

def setKey (n : Node Key) (key : Key) : Node Key := { n with key := key }

private theorem one_getElem (i : Nat) (hi : i < 32) : (1 : Word)[i] = decide (i = 0) := by
  by_cases h : i = 0
  · subst h
    simp
  · simp [h]

private theorem mask_getElem (i : Nat) (hi : i < 32) :
    (~~~(1 : Word))[i] = decide (i ≠ 0) := by
  rw [BitVec.getElem_not, one_getElem]
  simp

theorem isBlack_eq (n : Node Key) : n.isBlack = n.parAndColor[0] := by
  simp [isBlack, BitVec.getLsbD_eq_getElem]

theorem isRed_eq (n : Node Key) : n.isRed = !n.isBlack := rfl

theorem getPar_getElem (n : Node Key) (i : Nat) (hi : i < 32) :
    n.getPar[i] = (n.parAndColor[i] && decide (i ≠ 0)) := by
  rw [getPar, BitVec.getElem_and, mask_getElem]

/-! ## The colour bit -/

@[simp] theorem isBlack_setRed (n : Node Key) : n.setRed.isBlack = false := by
  rw [isBlack_eq, setRed, BitVec.getElem_and, mask_getElem]
  simp

@[simp] theorem isBlack_setBlack (n : Node Key) : n.setBlack.isBlack = true := by
  rw [isBlack_eq, setBlack, BitVec.getElem_or, one_getElem]
  simp

@[simp] theorem isBlack_copyColor (n src : Node Key) :
    (n.copyColor src).isBlack = src.isBlack := by
  rw [isBlack_eq, isBlack_eq, copyColor, BitVec.getElem_or, BitVec.getElem_and,
    BitVec.getElem_and, mask_getElem, one_getElem]
  simp

@[simp] theorem isBlack_copyPar (n src : Node Key) : (n.copyPar src).isBlack = n.isBlack := by
  rw [isBlack_eq, isBlack_eq, copyPar, BitVec.getElem_or, BitVec.getElem_and,
    BitVec.getElem_and, mask_getElem, one_getElem]
  simp

theorem isBlack_setPar (n : Node Key) {par : Word} (hpar : IsEven par) :
    (n.setPar par).isBlack = n.isBlack := by
  have low : par[0] = false := hpar
  rw [isBlack_eq, isBlack_eq, setPar, BitVec.getElem_or, BitVec.getElem_and, one_getElem, low]
  simp

@[simp] theorem isBlack_setCh (n : Node Key) (i : Bool) (p : Word) :
    (n.setCh i p).isBlack = n.isBlack := rfl

@[simp] theorem isBlack_setSize (n : Node Key) (size : Int) :
    (n.setSize size).isBlack = n.isBlack := rfl

@[simp] theorem isBlack_setKey (n : Node Key) (key : Key) :
    (n.setKey key).isBlack = n.isBlack := rfl

/-! ## The parent pointer -/

@[simp] theorem getPar_setRed (n : Node Key) : n.setRed.getPar = n.getPar := by
  ext i hi
  rw [getPar_getElem, getPar_getElem, setRed, BitVec.getElem_and, mask_getElem]
  simp

@[simp] theorem getPar_setBlack (n : Node Key) : n.setBlack.getPar = n.getPar := by
  ext i hi
  rw [getPar_getElem, getPar_getElem, setBlack, BitVec.getElem_or, one_getElem]
  by_cases h : i = 0 <;> simp [h]

@[simp] theorem getPar_copyColor (n src : Node Key) : (n.copyColor src).getPar = n.getPar := by
  ext i hi
  rw [getPar_getElem, getPar_getElem, copyColor, BitVec.getElem_or, BitVec.getElem_and,
    BitVec.getElem_and, mask_getElem, one_getElem]
  by_cases h : i = 0 <;> simp [h]

@[simp] theorem getPar_copyPar (n src : Node Key) : (n.copyPar src).getPar = src.getPar := by
  ext i hi
  rw [getPar_getElem, getPar_getElem, copyPar, BitVec.getElem_or, BitVec.getElem_and,
    BitVec.getElem_and, mask_getElem, one_getElem]
  by_cases h : i = 0 <;> simp [h]

theorem getPar_setPar (n : Node Key) {par : Word} (hpar : IsEven par) :
    (n.setPar par).getPar = par := by
  have low : par[0] = false := hpar
  ext i hi
  rw [getPar_getElem, setPar, BitVec.getElem_or, BitVec.getElem_and, one_getElem]
  by_cases h : i = 0
  · subst h
    simp [low]
  · simp [h]

@[simp] theorem getPar_setCh (n : Node Key) (i : Bool) (p : Word) :
    (n.setCh i p).getPar = n.getPar := rfl

@[simp] theorem getPar_setSize (n : Node Key) (size : Int) :
    (n.setSize size).getPar = n.getPar := rfl

@[simp] theorem getPar_setKey (n : Node Key) (key : Key) :
    (n.setKey key).getPar = n.getPar := rfl

/-! ## Children, key and size -/

@[simp] theorem ch_setCh_same (n : Node Key) (i : Bool) (p : Word) : (n.setCh i p).ch i = p := by
  simp [setCh]

@[simp] theorem ch_setCh_not (n : Node Key) (i : Bool) (p : Word) :
    (n.setCh i p).ch (!i) = n.ch (!i) := by
  cases i <;> simp [setCh]

@[simp] theorem ch_setCh_not' (n : Node Key) (i : Bool) (p : Word) :
    (n.setCh (!i) p).ch i = n.ch i := by
  cases i <;> simp [setCh]

@[simp] theorem ch_setRed (n : Node Key) : n.setRed.ch = n.ch := rfl

@[simp] theorem ch_setBlack (n : Node Key) : n.setBlack.ch = n.ch := rfl

@[simp] theorem ch_copyColor (n src : Node Key) : (n.copyColor src).ch = n.ch := rfl

@[simp] theorem ch_copyPar (n src : Node Key) : (n.copyPar src).ch = n.ch := rfl

@[simp] theorem ch_setPar (n : Node Key) (par : Word) : (n.setPar par).ch = n.ch := rfl

@[simp] theorem key_setRed (n : Node Key) : n.setRed.key = n.key := rfl

@[simp] theorem key_setBlack (n : Node Key) : n.setBlack.key = n.key := rfl

@[simp] theorem key_copyColor (n src : Node Key) : (n.copyColor src).key = n.key := rfl

@[simp] theorem key_copyPar (n src : Node Key) : (n.copyPar src).key = n.key := rfl

@[simp] theorem key_setPar (n : Node Key) (par : Word) : (n.setPar par).key = n.key := rfl

@[simp] theorem size_setRed (n : Node Key) : n.setRed.size = n.size := rfl

@[simp] theorem size_setBlack (n : Node Key) : n.setBlack.size = n.size := rfl

@[simp] theorem size_copyColor (n src : Node Key) : (n.copyColor src).size = n.size := rfl

@[simp] theorem size_copyPar (n src : Node Key) : (n.copyPar src).size = n.size := rfl

@[simp] theorem size_setPar (n : Node Key) (par : Word) : (n.setPar par).size = n.size := rfl

@[simp] theorem key_setCh (n : Node Key) (i : Bool) (p : Word) : (n.setCh i p).key = n.key := rfl

@[simp] theorem size_setCh (n : Node Key) (i : Bool) (p : Word) : (n.setCh i p).size = n.size := rfl

@[simp] theorem ch_setSize (n : Node Key) (size : Int) : (n.setSize size).ch = n.ch := rfl

@[simp] theorem key_setSize (n : Node Key) (size : Int) : (n.setSize size).key = n.key := rfl

@[simp] theorem size_setSize (n : Node Key) (size : Int) : (n.setSize size).size = size := rfl

@[simp] theorem ch_setKey (n : Node Key) (key : Key) : (n.setKey key).ch = n.ch := rfl

@[simp] theorem key_setKey (n : Node Key) (key : Key) : (n.setKey key).key = key := rfl

@[simp] theorem size_setKey (n : Node Key) (key : Key) : (n.setKey key).size = n.size := rfl

end Node

end Jkos.Rbt
