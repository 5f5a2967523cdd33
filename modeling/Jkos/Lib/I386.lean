import Mathlib.Data.BitVec
import Mathlib.Logic.Function.Iterate

/-!
# A fragment of the i386

Registers, flat byte-addressed memory, and the instructions an interrupt handler with a
jump table is written in. A handler is a list of instructions executed one at a time;
the functions it calls are a parameter that maps the state at the entry of a function to
the state after its `ret`. Every explicit memory operand that is read and every call is
recorded.

Of the status flags only SF and OF are computed: they are the ones a modelled instruction
reads. Interrupts are not taken while a handler runs.
-/

namespace I386

/-- The general registers. -/
inductive Reg where
  | eax | ebx | ecx | edx | esi | edi | ebp | esp
  deriving DecidableEq

/-- The segment registers. -/
inductive Seg where
  | cs | ss | ds | es | fs | gs
  deriving DecidableEq

/-- What a program can observe of the processor and the memory. -/
structure Cpu where
  regs : Reg → BitVec 32
  segs : Seg → BitVec 16
  eip : BitVec 32
  eflags : BitVec 32
  mem : BitVec 32 → BitVec 8

/-- The word stored at an address, lowest byte first. -/
def load32 (m : BitVec 32 → BitVec 8) (a : BitVec 32) : BitVec 32 :=
  (m (a + 3) ++ m (a + 2) ++ m (a + 1) ++ m a : BitVec (8 + 8 + 8 + 8))

/-- Store a word, lowest byte first. -/
def store32 (m : BitVec 32 → BitVec 8) (a v : BitVec 32) : BitVec 32 → BitVec 8 := fun b =>
  if b = a then v.extractLsb' 0 8
  else if b = a + 1 then v.extractLsb' 8 8
  else if b = a + 2 then v.extractLsb' 16 8
  else if b = a + 3 then v.extractLsb' 24 8
  else m b

namespace Cpu

def setReg (c : Cpu) (r : Reg) (v : BitVec 32) : Cpu :=
  { c with regs := fun r' => if r' = r then v else c.regs r' }

def setSeg (c : Cpu) (x : Seg) (v : BitVec 16) : Cpu :=
  { c with segs := fun x' => if x' = x then v else c.segs x' }

/-- Set one bit of the flags register. -/
def setFlag (c : Cpu) (i : Nat) (b : Bool) : Cpu :=
  { c with eflags := if b then c.eflags ||| 1#32 <<< i else c.eflags &&& ~~~(1#32 <<< i) }

/-- The flags SF and OF of an arithmetic result. -/
def setStatus (c : Cpu) (result : BitVec 32) (overflow : Bool) : Cpu :=
  (c.setFlag 7 result.msb).setFlag 11 overflow

def push (c : Cpu) (v : BitVec 32) : Cpu :=
  { c.setReg .esp (c.regs .esp - 4) with mem := store32 c.mem (c.regs .esp - 4) v }

/-- A word of the stack, counted from its top. -/
def stack (c : Cpu) (i : Nat) : BitVec 32 := load32 c.mem (c.regs .esp + BitVec.ofNat 32 (4 * i))

/-- An interrupt raised in user mode through an interrupt gate: the stack of the kernel
is entered and the state of the caller is saved there. -/
def interrupt (c : Cpu) (esp0 : BitVec 32) (ss0 cs0 : BitVec 16) (handler : BitVec 32) : Cpu :=
  let k := (c.setReg .esp esp0).setSeg .ss ss0
  let k := k.push ((c.segs .ss).setWidth 32)
  let k := k.push (c.regs .esp)
  let k := k.push c.eflags
  let k := k.push ((c.segs .cs).setWidth 32)
  let k := k.push c.eip
  -- TF, IF, NT, RF and VM are cleared
  { k.setSeg .cs cs0 with eip := handler, eflags := c.eflags &&& ~~~0x34300 }

/-- Return from an interrupt. Selectors of the kernel's data segment `dataSel` are taken
away from a caller that runs in user mode. -/
def iret (c : Cpu) (dataSel : BitVec 16) : Cpu :=
  let cs := (c.stack 1).setWidth 16
  if cs &&& 3 = 0 then
    { (c.setReg .esp (c.regs .esp + 12)).setSeg .cs cs with eip := c.stack 0, eflags := c.stack 2 }
  else
    { c with
      regs := fun r => if r = .esp then c.stack 3 else c.regs r
      segs := fun x => match x with
        | .cs => cs
        | .ss => (c.stack 4).setWidth 16
        | x => if c.segs x >>> 3 = dataSel >>> 3 then 0 else c.segs x
      eip := c.stack 0
      eflags := c.stack 2 }

section

variable (c : Cpu) (r r' : Reg) (x x' : Seg) (v : BitVec 32) (w : BitVec 16)

@[simp] theorem setReg_regs :
    (c.setReg r v).regs r' = if r' = r then v else c.regs r' := rfl

@[simp] theorem setReg_segs : (c.setReg r v).segs = c.segs := rfl

@[simp] theorem setReg_mem : (c.setReg r v).mem = c.mem := rfl

@[simp] theorem setSeg_regs : (c.setSeg x w).regs = c.regs := rfl

@[simp] theorem setSeg_segs :
    (c.setSeg x w).segs x' = if x' = x then w else c.segs x' := rfl

@[simp] theorem setSeg_mem : (c.setSeg x w).mem = c.mem := rfl

@[simp] theorem setStatus_regs (o : Bool) : (c.setStatus v o).regs = c.regs := rfl

@[simp] theorem setStatus_segs (o : Bool) : (c.setStatus v o).segs = c.segs := rfl

@[simp] theorem setStatus_mem (o : Bool) : (c.setStatus v o).mem = c.mem := rfl

@[simp] theorem push_regs :
    (c.push v).regs r = if r = .esp then c.regs .esp - 4 else c.regs r := rfl

@[simp] theorem push_segs : (c.push v).segs = c.segs := rfl

@[simp] theorem push_mem : (c.push v).mem = store32 c.mem (c.regs .esp - 4) v := rfl

end

end Cpu

/-- The instructions, operands in the order of the assembler. -/
inductive Instr where
  | cmp (imm : BitVec 32) (r : Reg)
  /-- `jge`: a jump if the first operand was not less, as signed numbers. -/
  | jge (target : Nat)
  | push (r : Reg)
  | xor (src dst : Reg)
  /-- `mov %seg, %r16`: only the lower half of the register changes. -/
  | movFromSeg (x : Seg) (r : Reg)
  /-- `mov $imm, %r16`. -/
  | mov16 (imm : BitVec 16) (r : Reg)
  /-- `mov %r16, %seg`. -/
  | movToSeg (r : Reg) (x : Seg)
  /-- `movl disp(%base), %r`. -/
  | load (disp : BitVec 32) (base r : Reg)
  /-- `call *table(, %index, 4)`. -/
  | call (table : BitVec 32) (index : Reg)
  | add (imm : BitVec 32) (r : Reg)
  | iret

/-- One call made by a handler: where its target was read, the target, and the state the
function was entered in. -/
structure Call where
  slot : BitVec 32
  target : BitVec 32
  entry : Cpu

/-- A handler in execution. -/
structure Run where
  cpu : Cpu
  pc : Nat
  reads : List (BitVec 32)
  calls : List Call

namespace Run

/-- Go on to the next instruction with a new processor state. -/
def advance (x : Run) (c : Cpu) : Run := { x with cpu := c, pc := x.pc + 1 }

/-- The lower half of a register replaced. -/
def withLow (v : BitVec 32) (low : BitVec 16) : BitVec 32 :=
  (v &&& 0xFFFF0000) ||| low.setWidth 32

/-- Execute an instruction other than `iret`, which ends the handler. The assembler placed
instruction `n` at `place n`. -/
def exec (place : Nat → BitVec 32) (callee : BitVec 32 → Cpu → Cpu) (x : Run) : Instr → Run
  | .cmp imm r =>
      let a := x.cpu.regs r
      x.advance (x.cpu.setStatus (a - imm) (a.ssubOverflow imm))
  | .jge target =>
      if x.cpu.eflags.getLsbD 7 = x.cpu.eflags.getLsbD 11 then { x with pc := target }
      else { x with pc := x.pc + 1 }
  | .push r => x.advance (x.cpu.push (x.cpu.regs r))
  | .xor src dst =>
      let v := x.cpu.regs dst ^^^ x.cpu.regs src
      x.advance ((x.cpu.setReg dst v).setStatus v false)
  | .movFromSeg seg r => x.advance (x.cpu.setReg r (withLow (x.cpu.regs r) (x.cpu.segs seg)))
  | .mov16 imm r => x.advance (x.cpu.setReg r (withLow (x.cpu.regs r) imm))
  | .movToSeg r seg => x.advance (x.cpu.setSeg seg ((x.cpu.regs r).setWidth 16))
  | .load disp base r =>
      let a := x.cpu.regs base + disp
      { x.advance (x.cpu.setReg r (load32 x.cpu.mem a)) with reads := x.reads ++ [a] }
  | .call table index =>
      let slot := table + x.cpu.regs index * 4
      let target := load32 x.cpu.mem slot
      let entry := { x.cpu.push (place (x.pc + 1)) with eip := target }
      { x.advance (callee target entry) with
        reads := x.reads ++ [slot]
        calls := x.calls ++ [⟨slot, target, entry⟩] }
  | .add imm r =>
      let a := x.cpu.regs r
      x.advance ((x.cpu.setReg r (a + imm)).setStatus (a + imm) (a.saddOverflow imm))
  | .iret => x

/-- One instruction of a handler. A handler that has reached its `iret` stays there. -/
def next (code : List Instr) (place : Nat → BitVec 32) (callee : BitVec 32 → Cpu → Cpu)
    (x : Run) : Run :=
  match code[x.pc]? with
  | some i => x.exec place callee i
  | none => x

/-- The handler stands at an `iret`. -/
def Returns (code : List Instr) (x : Run) : Prop := code[x.pc]? = some .iret

end Run

/-- An instruction after which the next one is executed. -/
def Instr.Straight : Instr → Prop
  | .jge _ | .iret => False
  | _ => True

namespace Run

variable {place : Nat → BitVec 32} {callee : BitVec 32 → Cpu → Cpu} {code : List Instr}

theorem exec_pc {i : Instr} (h : i.Straight) (x : Run) :
    (x.exec place callee i).pc = x.pc + 1 := by
  cases i <;> first | exact h.elim | rfl

theorem next_of_fetch {x : Run} {i : Instr} (h : code[x.pc]? = some i) :
    x.next code place callee = x.exec place callee i := by
  simp [next, h]

/-- A handler that stands at an `iret` stays there. -/
theorem iterate_next_of_returns {x : Run} (h : x.Returns code) (n : Nat) :
    (next code place callee)^[n] x = x :=
  Function.iterate_fixed (next_of_fetch h) n

/-- Code without calls does the same whatever the functions do. -/
theorem foldl_exec_congr {block : List Instr} (nocall : ∀ i ∈ block, ∀ t r, i ≠ .call t r)
    (callee' : BitVec 32 → Cpu → Cpu) (x : Run) :
    block.foldl (exec place callee) x = block.foldl (exec place callee') x := by
  induction block generalizing x with
  | nil => rfl
  | cons i block ih =>
      have hi : x.exec place callee i = x.exec place callee' i := by
        cases i with
        | call t r => exact absurd rfl (nocall _ (by simp) t r)
        | _ => rfl
      rw [List.foldl_cons, List.foldl_cons, hi]
      exact ih (fun j hj => nocall j (by simp [hj])) _

/-- Straight-line code is executed instruction after instruction. -/
theorem iterate_next_straight (place : Nat → BitVec 32) (callee : BitVec 32 → Cpu → Cpu)
    (front block rest : List Instr)
    (straight : ∀ i ∈ block, i.Straight) :
    ∀ x : Run, x.pc = front.length → code = front ++ block ++ rest →
      (next code place callee)^[block.length] x = block.foldl (exec place callee) x ∧
        (block.foldl (exec place callee) x).pc = front.length + block.length := by
  induction block generalizing front with
  | nil =>
      intro x hpc _
      exact ⟨rfl, hpc⟩
  | cons i block ih =>
      intro x hpc hcode
      have fetch : code[x.pc]? = some i := by simp [hcode, hpc]
      have hi := straight i (by simp)
      have hpc' : (x.exec place callee i).pc = (front ++ [i]).length := by
        simp [exec_pc hi, hpc]
      have tail := ih (front ++ [i]) (fun j hj => straight j (by simp [hj])) (x.exec place callee i) hpc'
        (by simp [hcode])
      constructor
      · rw [List.length_cons, Function.iterate_succ_apply, next_of_fetch fetch]
        exact tail.1
      · have hlen := tail.2
        simp only [List.length_append, List.length_cons, List.length_nil] at hlen
        simp only [List.foldl_cons, List.length_cons]
        omega

end Run

/-! ## Memory -/

theorem load32_store32 (m : BitVec 32 → BitVec 8) (a v : BitVec 32) :
    load32 (store32 m a v) a = v := by
  have h1 : a + 1 ≠ a := by simp
  have h2 : a + 2 ≠ a := by simp
  have h3 : a + 3 ≠ a := by simp
  have h21 : a + 2 ≠ a + 1 := by simp
  have h31 : a + 3 ≠ a + 1 := by simp
  have h32 : a + 3 ≠ a + 2 := by simp
  simp only [load32, store32, if_true, if_neg h1, if_neg h2, if_neg h3, if_neg h21, if_neg h31,
    if_neg h32]
  apply BitVec.eq_of_getLsbD_eq
  intro i hi
  simp only [BitVec.getLsbD_append, BitVec.getLsbD_extractLsb']
  grind

/-- A word is determined by its bytes. -/
theorem load32_congr {m m' : BitVec 32 → BitVec 8} {a : BitVec 32}
    (h : ∀ i : Fin 4, m' (a + BitVec.ofNat 32 i) = m (a + BitVec.ofNat 32 i)) :
    load32 m' a = load32 m a := by
  have h0 : m' a = m a := by simpa using h 0
  have h1 : m' (a + 1) = m (a + 1) := h 1
  have h2 : m' (a + 2) = m (a + 2) := h 2
  have h3 : m' (a + 3) = m (a + 3) := h 3
  simp only [load32, h0, h1, h2, h3]

/-- A store does not change a byte outside the stored word. -/
theorem store32_of_ne (m : BitVec 32 → BitVec 8) {a b : BitVec 32} (v : BitVec 32)
    (h : ∀ j : Fin 4, b ≠ a + BitVec.ofNat 32 j) : store32 m a v b = m b := by
  have h0 : b ≠ a := by simpa using h 0
  have h1 : b ≠ a + 1 := h 1
  have h2 : b ≠ a + 2 := h 2
  have h3 : b ≠ a + 3 := h 3
  rw [store32, if_neg h0, if_neg h1, if_neg h2, if_neg h3]

/-- A store does not change a word that shares no byte with it. -/
theorem load32_store32_of_ne (m : BitVec 32 → BitVec 8) {a b : BitVec 32} (v : BitVec 32)
    (h : ∀ i j : Fin 4, b + BitVec.ofNat 32 i ≠ a + BitVec.ofNat 32 j) :
    load32 (store32 m a v) b = load32 m b :=
  load32_congr fun i => store32_of_ne m v (h i)

/-! ## Flags and jumps -/

theorem Cpu.getLsbD_setStatus (c : Cpu) (v : BitVec 32) (o : Bool) :
    (c.setStatus v o).eflags.getLsbD 7 = v.msb ∧ (c.setStatus v o).eflags.getLsbD 11 = o := by
  simp only [Cpu.setStatus, Cpu.setFlag]
  cases v.msb <;> cases o <;> simp

/-- SF and OF agree after a subtraction exactly when the first operand is not less than the
second as a signed number. -/
theorem msb_sub_eq_overflow {a b : BitVec 32} :
    (a - b).msb = a.ssubOverflow b ↔ b.toInt ≤ a.toInt := by
  have ha := a.toInt_lt
  have ha' := a.le_toInt
  have hb := b.toInt_lt
  have hb' := b.le_toInt
  have hmsb : (a - b).msb = decide ((a - b).toInt < 0) := BitVec.msb_eq_toInt
  rw [hmsb, BitVec.toInt_sub, BitVec.ssubOverflow]
  have hbmod := Int.bmod_def (a.toInt - b.toInt) (2 ^ 32)
  rw [Bool.eq_iff_iff]
  simp only [decide_eq_true_eq, Bool.or_eq_true]
  grind

/-- A function that obeys the cdecl convention, called with at most `n` words of arguments
on a stack that ends at `top`: it may change `eax`, `ecx`, `edx`, its argument slots and
everything outside the stack, and pops its return address. -/
structure Cdecl (n : Nat) (top : BitVec 32) (f : Cpu → Cpu) : Prop where
  ebx : ∀ c, (f c).regs .ebx = c.regs .ebx
  esi : ∀ c, (f c).regs .esi = c.regs .esi
  edi : ∀ c, (f c).regs .edi = c.regs .edi
  ebp : ∀ c, (f c).regs .ebp = c.regs .ebp
  esp : ∀ c, (f c).regs .esp = c.regs .esp + 4
  stack : ∀ c a, c.regs .esp + BitVec.ofNat 32 (4 * (n + 1)) ≤ a → a < top →
    (f c).mem a = c.mem a

end I386
