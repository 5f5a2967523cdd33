import Jkos.Word
import Mathlib.Data.List.GetD
import Mathlib.Logic.Function.Basic

/-!
# The RAM disk

`Ramdisk_file_node` of `ramdisk.cpp`: a file that is a range of memory. Offsets are signed
64-bit numbers and addresses are unsigned 32-bit words, and the code adds and compares the
two. The buffer of a transfer is an object of the caller: `read` yields the bytes it copies
there, and `write` is given the bytes it finds there.
-/

namespace Jkos.Fs

/-- `off_t`. The kernel is compiled without optimization, so sums wrap. -/
abbrev Off := BitVec 64

/-- `SEEK_SET`. -/
def seekSet : Word := 0

/-- `SEEK_CUR`. -/
def seekCur : Word := 1

/-- `SEEK_END`. -/
def seekEnd : Word := 2

/-- `EBADF`. -/
def ebadf : Word := 9

/-- `EINVAL`. -/
def einval : Word := 22

/-- The bytes of memory from an address on. -/
def load (memory : Word → Byte) (src : Word) (n : Nat) : List Byte :=
  (List.range n).map fun k => memory (src + BitVec.ofNat 32 k)

/-- `memcpy` to memory: `rep movsb` goes upwards. -/
def store (memory : Word → Byte) (dest : Word) : List Byte → Word → Byte
  | [] => memory
  | b :: bs => store (Function.update memory dest b) (dest + 1) bs

/-- A `Ramdisk_file_node` with the memory around it and the `errno` of the task. The field
`stop` is the member `end`. -/
structure RamdiskFileNode where
  start : Word
  stop : Word
  curOffset : Off
  closed : Bool
  memory : Word → Byte
  errno : Word

namespace RamdiskFileNode

/-- `this->end - this->start`. -/
def size (node : RamdiskFileNode) : Word := node.stop - node.start

def setErrno (node : RamdiskFileNode) (errno : Word) : RamdiskFileNode :=
  { node with errno := errno }

/-- The variable `off1` of `seek`, after the `switch`. -/
def off1 (node : RamdiskFileNode) (offset : Off) (whence : Word) : Off :=
  if whence = seekSet then offset
  else if whence = seekCur then offset + node.curOffset
  else if whence = seekEnd then node.size.setWidth 64 + offset
  else -1

/-- `seek`. -/
def seek (node : RamdiskFileNode) (offset : Off) (whence : Word) : Off × RamdiskFileNode :=
  if node.closed then (-1, node.setErrno ebadf)
  else
    let off1 := node.off1 offset whence
    if off1.slt 0 || (node.size.setWidth 64).sle off1 then (-1, node.setErrno einval)
    else (off1, { node with curOffset := off1 })

/-- `(size_t)min<off_t>(cnt, this->end - this->start - this->cur_offset)`. -/
def clamp (node : RamdiskFileNode) (cnt : Word) : Word :=
  let a : Off := cnt.setWidth 64
  let b : Off := node.size.setWidth 64 - node.curOffset
  (if a.slt b then a else b).setWidth 32

/-- `(void*)(this->start + this->cur_offset)`. -/
def address (node : RamdiskFileNode) : Word :=
  (node.start.setWidth 64 + node.curOffset).setWidth 32

/-- `this->cur_offset += cnt`. -/
def advance (node : RamdiskFileNode) (cnt : Word) : RamdiskFileNode :=
  { node with curOffset := node.curOffset + cnt.setWidth 64 }

/-- `read`, with the bytes it puts into the buffer. -/
def read (node : RamdiskFileNode) (cnt : Word) : Word × List Byte × RamdiskFileNode :=
  if node.closed then (-1, [], node.setErrno ebadf)
  else
    let cnt := node.clamp cnt
    if cnt = 0 then (0, [], node)
    else (cnt, load node.memory node.address cnt.toNat, node.advance cnt)

/-- `write`, where `buf k` is byte `k` of the buffer. -/
def write (node : RamdiskFileNode) (buf : Nat → Byte) (cnt : Word) : Word × RamdiskFileNode :=
  if node.closed then (-1, node.setErrno ebadf)
  else
    let cnt := node.clamp cnt
    if cnt = 0 then (0, node)
    else
      let bytes := (List.range cnt.toNat).map buf
      (cnt, { node with memory := store node.memory node.address bytes }.advance cnt)

/-- `close`. -/
def close (node : RamdiskFileNode) : RamdiskFileNode := { node with closed := true }

end RamdiskFileNode

/-- `ramdisk_get_file_node`. -/
def ramdiskGetFileNode (memory : Word → Byte) (errno start stop : Word) : RamdiskFileNode :=
  ⟨start, stop, 0, false, memory, errno⟩

/-! ## Byte files -/

/-- An array of bytes with a cursor, which may stand behind the last byte. -/
structure ByteFile where
  contents : List Byte
  cursor : Nat
  closed : Bool
  cursor_le : cursor ≤ contents.length

/-- An operation on an open file. -/
inductive FileOp where
  | seek (offset : Off) (whence : Word)
  | read (cnt : Word)
  | write (buf : Nat → Byte) (cnt : Word)
  | close

/-- What an operation tells its caller. -/
inductive Reply where
  | seeked (off : Int)
  | transferred (n : Int) (data : List Byte)
  | closed
  deriving DecidableEq

/-- The number that the call returns. -/
def Reply.value : Reply → Int
  | .seeked off => off
  | .transferred n _ => n
  | .closed => 0

/-- The bytes in the buffer of the caller. -/
def Reply.data : Reply → List Byte
  | .transferred _ data => data
  | _ => []

namespace ByteFile

/-- The offset that a call of `seek` asks for. -/
def target (f : ByteFile) (offset : Int) (whence : Word) : Option Int :=
  if whence = seekSet then some offset
  else if whence = seekCur then some (f.cursor + offset)
  else if whence = seekEnd then some (f.contents.length + offset)
  else none

/-- The cursor moves to an offset inside the file and nowhere else. -/
def seek (f : ByteFile) (offset : Int) (whence : Word) : Reply × ByteFile :=
  match f.closed, f.target offset whence with
  | false, some t =>
      if h : 0 ≤ t ∧ t < f.contents.length then
        (.seeked t, { f with cursor := t.toNat, cursor_le := by omega })
      else (.seeked (-1), f)
  | _, _ => (.seeked (-1), f)

/-- The bytes that a request for `cnt` bytes gets. -/
def amount (f : ByteFile) (cnt : Nat) : Nat := min cnt (f.contents.length - f.cursor)

theorem amount_le (f : ByteFile) (cnt : Nat) : f.cursor + f.amount cnt ≤ f.contents.length := by
  have hle := f.cursor_le
  simp only [amount]
  omega

def read (f : ByteFile) (cnt : Nat) : Reply × ByteFile :=
  if f.closed then (.transferred (-1) [], f)
  else
    (.transferred (f.amount cnt) ((f.contents.drop f.cursor).take (f.amount cnt)),
      { f with cursor := f.cursor + f.amount cnt, cursor_le := f.amount_le cnt })

/-- The contents with other bytes from an offset on. -/
def overwrite (contents bytes : List Byte) (off : Nat) : List Byte :=
  contents.take off ++ bytes ++ contents.drop (off + bytes.length)

theorem length_overwrite {contents bytes : List Byte} {off : Nat}
    (h : off + bytes.length ≤ contents.length) :
    (overwrite contents bytes off).length = contents.length := by
  simp only [overwrite, List.length_append, List.length_take, List.length_drop]
  omega

def write (f : ByteFile) (buf : Nat → Byte) (cnt : Nat) : Reply × ByteFile :=
  if f.closed then (.transferred (-1) [], f)
  else
    let bytes := (List.range (f.amount cnt)).map buf
    have hlen : bytes.length = f.amount cnt := by simp [bytes]
    (.transferred (f.amount cnt) [],
      { f with
        contents := overwrite f.contents bytes f.cursor
        cursor := f.cursor + f.amount cnt
        cursor_le := by
          rw [length_overwrite (hlen ▸ f.amount_le cnt)]
          exact f.amount_le cnt })

def exec (f : ByteFile) : FileOp → Reply × ByteFile
  | .seek offset whence => f.seek offset.toInt whence
  | .read cnt => f.read cnt.toNat
  | .write buf cnt => f.write buf cnt.toNat
  | .close => (.closed, { f with closed := true })

/-- The replies to a sequence of operations, and the file after it. -/
def run (f : ByteFile) : List FileOp → List Reply × ByteFile
  | [] => ([], f)
  | op :: ops => ((f.exec op).1 :: ((f.exec op).2.run ops).1, ((f.exec op).2.run ops).2)

end ByteFile

namespace RamdiskFileNode

def exec (node : RamdiskFileNode) : FileOp → Reply × RamdiskFileNode
  | .seek offset whence => (.seeked (node.seek offset whence).1.toInt, (node.seek offset whence).2)
  | .read cnt => (.transferred (node.read cnt).1.toInt (node.read cnt).2.1, (node.read cnt).2.2)
  | .write buf cnt => (.transferred (node.write buf cnt).1.toInt [], (node.write buf cnt).2)
  | .close => (.closed, node.close)

/-- The replies to a sequence of operations, and the node after it. -/
def run (node : RamdiskFileNode) : List FileOp → List Reply × RamdiskFileNode
  | [] => ([], node)
  | op :: ops =>
      ((node.exec op).1 :: ((node.exec op).2.run ops).1, ((node.exec op).2.run ops).2)

end RamdiskFileNode

/-! ## Transfers -/

section Transfers

variable {memory : Word → Byte} {dest src start : Word} {bytes : List Byte} {n off : Nat}

@[simp] theorem length_load : (load memory src n).length = n := by
  simp [load]

theorem getElem_load {k : Nat} (h : k < (load memory src n).length) :
    (load memory src n)[k] = memory (src + BitVec.ofNat 32 k) := by
  simp [load]

theorem load_take_drop (hle : off + n ≤ size) :
    load memory (start + BitVec.ofNat 32 off) n =
      ((load memory start size).drop off).take n := by
  apply List.ext_getElem
  · simp only [length_load, List.length_take, List.length_drop]
    omega
  · intro k hk _
    rw [getElem_load, List.getElem_take, List.getElem_drop, getElem_load, BitVec.ofNat_add,
      BitVec.add_assoc]

theorem store_apply (memory : Word → Byte) (dest : Word) (hlen : bytes.length ≤ 2 ^ 32)
    (a : Word) :
    store memory dest bytes a = bytes.getD (a - dest).toNat (memory a) := by
  induction bytes generalizing memory dest with
  | nil => rfl
  | cons b bs ih =>
      rw [List.length_cons] at hlen
      rw [store, ih _ _ (by omega)]
      by_cases ha : a = dest
      · subst ha
        have hlast : bs.length ≤ (a - (a + 1)).toNat := by
          bv_omega
        rw [List.getD_eq_default _ _ hlast, Function.update_self, BitVec.sub_self]
        rfl
      · have hnext : (a - dest).toNat = (a - (dest + 1)).toNat + 1 := by
          bv_omega
        rw [hnext, List.getD_cons_succ, Function.update_of_ne ha]

/-- The bytes of a range after some of them were overwritten. -/
theorem load_store (memory : Word → Byte) (start : Word) (bytes : List Byte) (off : Nat)
    (hn : n ≤ 2 ^ 32) (hle : off + bytes.length ≤ n) :
    load (store memory (start + BitVec.ofNat 32 off) bytes) start n =
      ByteFile.overwrite (load memory start n) bytes off := by
  apply List.ext_getElem
  · rw [ByteFile.length_overwrite (by rwa [length_load]), length_load, length_load]
  · intro k hk _
    rw [length_load] at hk
    rw [getElem_load, store_apply _ _ (by omega)]
    have hoff : off % 2 ^ 32 + k < 2 ^ 32 + k := by
      have := Nat.mod_lt off (Nat.two_pow_pos 32)
      omega
    have hdiff : (start + BitVec.ofNat 32 k - (start + BitVec.ofNat 32 off)).toNat =
        if off ≤ k then k - off else 2 ^ 32 + k - off := by
      split <;> bv_omega
    rw [hdiff]
    simp only [ByteFile.overwrite, List.append_assoc, List.getElem_append, List.length_take,
      length_load, List.getElem_take, List.getElem_drop, getElem_load]
    by_cases hlow : k < off
    · have hout : bytes.length ≤ 2 ^ 32 + k - off := by omega
      rw [if_neg (Nat.not_le.mpr hlow), List.getD_eq_default _ _ hout, dif_pos (by omega)]
    · have hmin : min off n = off := by omega
      by_cases hhigh : k - off < bytes.length
      · simp [hmin, hlow, show off ≤ k by omega, hhigh]
      · have hsum : off + bytes.length + (k - off - bytes.length) = k := by omega
        simp [hmin, hlow, show off ≤ k by omega, hhigh, hsum]

/-- A byte outside the range that is written keeps its value. -/
theorem store_of_not_mem (a : Word) (hlen : bytes.length ≤ 2 ^ 32)
    (ha : bytes.length ≤ (a - dest).toNat) : store memory dest bytes a = memory a := by
  rw [store_apply _ _ hlen, List.getD_eq_default _ _ ha]

end Transfers

/-! ## Offsets -/

namespace RamdiskFileNode

/-- The node stands for the file. -/
structure Represents (node : RamdiskFileNode) (f : ByteFile) : Prop where
  le : node.start.toNat ≤ node.stop.toNat
  small : node.stop.toNat - node.start.toNat < 2 ^ 31
  contents : f.contents = load node.memory node.start node.size.toNat
  curOffset : node.curOffset = BitVec.ofNat 64 f.cursor
  closed : node.closed = f.closed

variable {node : RamdiskFileNode} {f : ByteFile} {offset : Off} {whence cnt : Word} {n : Nat}

theorem toInt_ofNat_of_lt (h : n < 2 ^ 32) : (BitVec.ofNat 64 n).toInt = n := by
  rw [BitVec.toInt_ofNat', Int.bmod_eq_of_le] <;> omega

theorem setWidth_eq (w : Word) : (w.setWidth 64 : Off) = BitVec.ofNat 64 w.toNat := by
  apply BitVec.eq_of_toNat_eq
  simp [BitVec.toNat_setWidth]

namespace Represents

variable (h : node.Represents f)
include h

theorem toNat_size : node.size.toNat = node.stop.toNat - node.start.toNat := by
  have hle := h.le
  rw [size]
  bv_omega

theorem length_contents : f.contents.length = node.size.toNat := by
  rw [h.contents, length_load]

theorem size_lt : node.size.toNat < 2 ^ 31 := by
  rw [h.toNat_size]
  exact h.small

theorem cursor_le : f.cursor ≤ node.size.toNat := by
  rw [← h.length_contents]
  exact f.cursor_le

theorem toNat_clamp (cnt : Word) : (node.clamp cnt).toNat = f.amount cnt.toNat := by
  have hsize := h.size_lt
  have hcursor := h.cursor_le
  have hcnt := cnt.isLt
  have hrest : (node.size.setWidth 64 - node.curOffset : Off) =
      BitVec.ofNat 64 (node.size.toNat - f.cursor) := by
    rw [setWidth_eq, h.curOffset]
    bv_omega
  simp only [clamp, hrest]
  simp only [setWidth_eq, BitVec.slt, ByteFile.amount, h.length_contents]
  rw [toInt_ofNat_of_lt (by omega), toInt_ofNat_of_lt (by omega)]
  split
  · next hlt =>
      rw [decide_eq_true_eq] at hlt
      simp only [BitVec.toNat_setWidth, BitVec.toNat_ofNat]
      omega
  · next hlt =>
      rw [decide_eq_true_eq] at hlt
      simp only [BitVec.toNat_setWidth, BitVec.toNat_ofNat]
      omega

theorem address_eq : node.address = node.start + BitVec.ofNat 32 f.cursor := by
  have hsize := h.size_lt
  have hcursor := h.cursor_le
  rw [address, h.curOffset, setWidth_eq]
  apply BitVec.eq_of_toNat_eq
  simp only [BitVec.toNat_setWidth, BitVec.toNat_add, BitVec.toNat_ofNat]
  omega

end Represents

/-- The sum that `seek` computes is as good as the exact one: where it wraps, both are
outside the file. -/
structure SameTarget (off : Off) (t : Int) (n : Nat) : Prop where
  inside : 0 ≤ off.toInt ∧ off.toInt < n ↔ 0 ≤ t ∧ t < n
  eq : 0 ≤ t ∧ t < n → off.toInt = t

theorem sameTarget_add {c : Nat} (hc : c < 2 ^ 31) (hn : n < 2 ^ 31) :
    SameTarget (offset + BitVec.ofNat 64 c) (c + offset.toInt) n := by
  have hlower := BitVec.le_toInt offset
  have hupper := BitVec.toInt_lt (x := offset)
  have hsum : (offset + BitVec.ofNat 64 c).toInt = (offset.toInt + c).bmod (2 ^ 64) := by
    rw [BitVec.toInt_add, toInt_ofNat_of_lt (by omega)]
  rw [Int.bmod_def] at hsum
  constructor
  · rw [hsum]
    split <;> omega
  · rw [hsum]
    split <;> omega

theorem Represents.off1_eq (h : node.Represents f) :
    (∃ t, f.target offset.toInt whence = some t ∧
        SameTarget (node.off1 offset whence) t f.contents.length) ∨
      f.target offset.toInt whence = none ∧ node.off1 offset whence = -1 := by
  have hsize := h.size_lt
  have hcursor := h.cursor_le
  rw [off1, ByteFile.target, h.curOffset, setWidth_eq, h.length_contents]
  split
  · exact .inl ⟨_, rfl, Iff.rfl, fun _ => rfl⟩
  · split
    · exact .inl ⟨_, rfl, sameTarget_add (by omega) hsize⟩
    · split
      · refine .inl ⟨_, rfl, ?_⟩
        rw [BitVec.add_comm]
        exact sameTarget_add hsize hsize
      · exact .inr ⟨rfl, rfl⟩

/-! ## Operations -/

/-- What an operation on the node does, as seen from the file. -/
structure Simulates (node : RamdiskFileNode) (f : ByteFile) (reply : Reply)
    (node' : RamdiskFileNode) (reply' : Reply) (f' : ByteFile) : Prop where
  reply : reply = reply'
  represents : node'.Represents f'
  start : node'.start = node.start
  stop : node'.stop = node.stop
  /-- Nothing outside the file is written. -/
  outside : ∀ a : Word, a.toNat < node.start.toNat ∨ node.stop.toNat ≤ a.toNat →
    node'.memory a = node.memory a

theorem Represents.setErrno (h : node.Represents f) (errno : Word) :
    (node.setErrno errno).Represents f :=
  ⟨h.le, h.small, h.contents, h.curOffset, h.closed⟩

/-- A refused operation. -/
theorem Represents.refused (h : node.Represents f) (errno : Word) (reply : Reply) :
    Simulates node f reply (node.setErrno errno) reply f :=
  ⟨rfl, h.setErrno errno, rfl, rfl, fun _ _ => rfl⟩

/-- The range check of `seek`, as a statement about numbers. -/
theorem rejected_iff {off : Off} {size : Word} :
    (off.slt 0 || (size.setWidth 64).sle off) = true ↔
      ¬ (0 ≤ off.toInt ∧ off.toInt < size.toNat) := by
  have hzero : (0 : Off).toInt = 0 := rfl
  have hwidth : (size.setWidth 64 : Off).toInt = size.toNat := by
    rw [setWidth_eq, toInt_ofNat_of_lt size.isLt]
  simp only [BitVec.slt, BitVec.sle, hzero, hwidth, Bool.or_eq_true, decide_eq_true_eq]
  omega

theorem seek_of_outside (hopen : node.closed = false)
    (hout : ¬ (0 ≤ (node.off1 offset whence).toInt ∧
      (node.off1 offset whence).toInt < node.size.toNat)) :
    node.seek offset whence = (-1, node.setErrno einval) := by
  simp only [seek, hopen, Bool.false_eq_true, ↓reduceIte]
  rw [if_pos (rejected_iff.mpr hout)]

theorem seek_of_inside (hopen : node.closed = false)
    (hin : 0 ≤ (node.off1 offset whence).toInt ∧
      (node.off1 offset whence).toInt < node.size.toNat) :
    node.seek offset whence =
      (node.off1 offset whence, { node with curOffset := node.off1 offset whence }) := by
  simp only [seek, hopen, Bool.false_eq_true, ↓reduceIte]
  rw [if_neg (mt rejected_iff.mp (not_not_intro hin))]

theorem Represents.seek (h : node.Represents f) (offset : Off) (whence : Word) :
    Simulates node f (.seeked (node.seek offset whence).1.toInt) (node.seek offset whence).2
      (f.seek offset.toInt whence).1 (f.seek offset.toInt whence).2 := by
  cases hclosed : node.closed with
  | true =>
      have hnode : node.seek offset whence = (-1, node.setErrno ebadf) := by
        simp [RamdiskFileNode.seek, hclosed]
      have hfile : f.seek offset.toInt whence = (.seeked (-1), f) := by
        simp [ByteFile.seek, ← h.closed, hclosed]
      rw [hnode, hfile]
      exact h.refused ebadf _
  | false =>
      have hfclosed : f.closed = false := h.closed ▸ hclosed
      have htargets : (∃ t, f.target offset.toInt whence = some t ∧
          SameTarget (node.off1 offset whence) t f.contents.length) ∨
        f.target offset.toInt whence = none ∧ node.off1 offset whence = -1 := h.off1_eq
      obtain ⟨t, htarget, hsame⟩ | ⟨htarget, hoff⟩ := htargets
      · by_cases hin : 0 ≤ t ∧ t < f.contents.length
        · have hnode := hsame.inside.mpr hin
          rw [h.length_contents] at hnode
          rw [seek_of_inside hclosed hnode]
          simp only [ByteFile.seek, hfclosed, htarget, hin, and_self, ↓reduceDIte]
          refine ⟨by rw [hsame.eq hin], ⟨h.le, h.small, h.contents, ?_, hclosed⟩, rfl, rfl,
            fun _ _ => rfl⟩
          apply BitVec.eq_of_toInt_eq
          have hsize := h.size_lt
          rw [h.length_contents] at hin
          change (node.off1 offset whence).toInt = (BitVec.ofNat 64 t.toNat).toInt
          rw [hsame.eq (by rwa [h.length_contents]), toInt_ofNat_of_lt (by omega)]
          omega
        · have hnode := mt hsame.inside.mp hin
          rw [h.length_contents] at hnode
          rw [seek_of_outside hclosed hnode]
          simp only [ByteFile.seek, hfclosed, htarget, hin, ↓reduceDIte]
          exact h.refused einval _
      · have hneg : (-1 : Off).toInt = -1 := rfl
        rw [seek_of_outside hclosed (by rw [hoff, hneg]; omega)]
        simp only [ByteFile.seek, hfclosed, htarget]
        exact h.refused einval _

theorem Represents.curOffset_advance (h : node.Represents f) (cnt : Word) :
    node.curOffset + (node.clamp cnt).setWidth 64 =
      BitVec.ofNat 64 (f.cursor + f.amount cnt.toNat) := by
  rw [h.curOffset, setWidth_eq, h.toNat_clamp, BitVec.ofNat_add]

theorem Represents.toInt_clamp (h : node.Represents f) (cnt : Word) :
    (node.clamp cnt).toInt = f.amount cnt.toNat := by
  have hle := f.amount_le cnt.toNat
  have hsize := h.size_lt
  rw [h.length_contents] at hle
  have hclamp := h.toNat_clamp cnt
  rw [BitVec.toInt_eq_toNat_of_lt (by omega), hclamp]

/-- A transfer of no bytes is the same as one that is skipped. -/
theorem Represents.read (h : node.Represents f) (cnt : Word) :
    Simulates node f (.transferred (node.read cnt).1.toInt (node.read cnt).2.1)
      (node.read cnt).2.2 (f.read cnt.toNat).1 (f.read cnt.toNat).2 := by
  cases hclosed : node.closed with
  | true =>
      have hnode : node.read cnt = (-1, [], node.setErrno ebadf) := by
        simp [RamdiskFileNode.read, hclosed]
      have hfile : f.read cnt.toNat = (.transferred (-1) [], f) := by
        simp [ByteFile.read, ← h.closed, hclosed]
      rw [hnode, hfile]
      exact h.refused ebadf _
  | false =>
      have hfclosed : f.closed = false := h.closed ▸ hclosed
      have hread : node.read cnt = (node.clamp cnt,
          load node.memory node.address (node.clamp cnt).toNat, node.advance (node.clamp cnt)) := by
        simp only [RamdiskFileNode.read, hclosed, Bool.false_eq_true, ↓reduceIte]
        split
        · next hzero => simp [hzero, load, advance]
        · rfl
      have hle := f.amount_le cnt.toNat
      rw [h.length_contents] at hle
      rw [hread]
      simp only [ByteFile.read, hfclosed, Bool.false_eq_true, ↓reduceIte]
      refine ⟨?_, ⟨h.le, h.small, h.contents, h.curOffset_advance cnt, hclosed⟩, rfl, rfl,
        fun _ _ => rfl⟩
      rw [h.toInt_clamp, h.toNat_clamp, h.address_eq, load_take_drop hle, h.contents]

theorem Represents.write (h : node.Represents f) (buf : Nat → Byte) (cnt : Word) :
    Simulates node f (.transferred (node.write buf cnt).1.toInt []) (node.write buf cnt).2
      (f.write buf cnt.toNat).1 (f.write buf cnt.toNat).2 := by
  cases hclosed : node.closed with
  | true =>
      have hnode : node.write buf cnt = (-1, node.setErrno ebadf) := by
        simp [RamdiskFileNode.write, hclosed]
      have hfile : f.write buf cnt.toNat = (.transferred (-1) [], f) := by
        simp [ByteFile.write, ← h.closed, hclosed]
      rw [hnode, hfile]
      exact h.refused ebadf _
  | false =>
      have hfclosed : f.closed = false := h.closed ▸ hclosed
      let bytes := (List.range (f.amount cnt.toNat)).map buf
      have hlen : bytes.length = f.amount cnt.toNat := by simp [bytes]
      have hwrite : node.write buf cnt = (node.clamp cnt,
          { node with memory := store node.memory node.address bytes }.advance
            (node.clamp cnt)) := by
        have hbytes : (List.range (node.clamp cnt).toNat).map buf = bytes := by
          rw [h.toNat_clamp]
        simp only [RamdiskFileNode.write, hclosed, Bool.false_eq_true, ↓reduceIte, hbytes]
        split
        · next hzero =>
            have hnil : bytes = [] := by
              rw [← hbytes, hzero]
              rfl
            simp [hzero, hnil, store, advance, ← hclosed]
        · rfl
      have hle := f.amount_le cnt.toNat
      have hsize := h.size_lt
      have hwhole := h.toNat_size
      have hrange := h.le
      rw [h.length_contents] at hle
      rw [hwrite]
      simp only [ByteFile.write, hfclosed, Bool.false_eq_true, ↓reduceIte]
      refine ⟨by rw [h.toInt_clamp], ⟨h.le, h.small, ?_, h.curOffset_advance cnt, hclosed⟩,
        rfl, rfl, fun a ha => ?_⟩
      · have hload := load_store node.memory node.start bytes f.cursor
          (n := node.size.toNat) (by omega) (by rwa [hlen])
        rw [← h.address_eq, ← h.contents] at hload
        exact hload.symm
      · apply store_of_not_mem
        · omega
        · rw [hlen, h.address_eq]
          bv_omega

theorem Represents.close (h : node.Represents f) :
    Simulates node f .closed node.close .closed { f with closed := true } :=
  ⟨rfl, ⟨h.le, h.small, h.contents, h.curOffset, rfl⟩, rfl, rfl, fun _ _ => rfl⟩

/-- One operation on the node is one operation on the file. -/
theorem Represents.exec (h : node.Represents f) (op : FileOp) :
    Simulates node f (node.exec op).1 (node.exec op).2 (f.exec op).1 (f.exec op).2 := by
  cases op with
  | seek offset whence => exact h.seek offset whence
  | read cnt => exact h.read cnt
  | write buf cnt => exact h.write buf cnt
  | close => exact h.close

/-- What a sequence of operations on the node does, as seen from the file. -/
structure RunsAs (node : RamdiskFileNode) (f : ByteFile) (ops : List FileOp) : Prop where
  replies : (node.run ops).1 = (f.run ops).1
  represents : (node.run ops).2.Represents (f.run ops).2
  outside : ∀ a : Word, a.toNat < node.start.toNat ∨ node.stop.toNat ≤ a.toNat →
    (node.run ops).2.memory a = node.memory a

theorem Represents.run (h : node.Represents f) (ops : List FileOp) : RunsAs node f ops := by
  induction ops generalizing node f with
  | nil => exact ⟨rfl, h, fun _ _ => rfl⟩
  | cons op ops ih =>
      have hop := h.exec op
      have hrest := ih hop.represents
      refine ⟨?_, hrest.represents, fun a ha => ?_⟩
      · simp only [RamdiskFileNode.run, ByteFile.run, hop.reply, hrest.replies]
      · exact (hrest.outside a (by rwa [hop.start, hop.stop])).trans (hop.outside a ha)

end RamdiskFileNode

/-- The file that a range of memory holds, opened at its beginning. -/
def ByteFile.ofRange (memory : Word → Byte) (start stop : Word) : ByteFile :=
  ⟨load memory start (stop.toNat - start.toNat), 0, false, Nat.zero_le _⟩

open RamdiskFileNode in
/-- A node over a module of the boot loader is a byte file. -/
theorem ramdiskGetFileNode_run (memory : Word → Byte) (errno : Word) {start stop : Word}
    (hle : start.toNat ≤ stop.toNat) (hsmall : stop.toNat - start.toNat < 2 ^ 31)
    (ops : List FileOp) :
    RunsAs (ramdiskGetFileNode memory errno start stop) (.ofRange memory start stop) ops := by
  apply Represents.run
  refine ⟨hle, hsmall, ?_, rfl, rfl⟩
  have hsize : (stop - start).toNat = stop.toNat - start.toNat := by
    bv_omega
  rw [size, ramdiskGetFileNode, hsize]
  rfl

/-- Bytes are written behind the middle of a file, and the last one is read again. -/
theorem ramdiskGetFileNode_run_write :
    ((ramdiskGetFileNode (fun _ => 0) 0 0x100000 0x100004).run
      [.seek 2 seekSet, .write (fun k => BitVec.ofNat 8 (k + 7)) 100, .seek (-1) seekEnd,
        .seek (2 ^ 63 - 1) seekCur, .read 3, .close, .read 1]).1 =
      [.seeked 2, .transferred 2 [], .seeked 3, .seeked (-1), .transferred 1 [8], .closed,
        .transferred (-1) []] :=
  (ramdiskGetFileNode_run _ _ (by decide) (by decide) _).replies.trans (by decide +kernel)

end Jkos.Fs
