import Jkos.Lib.I386

/-!
# The stack frames of an interrupt handler

A handler that saves all registers pushes them, lets a function work and pops them again.
What it finds on the stack is stated word by word, counted from the top, so that neither the
place of the stack nor the number of words below it matters.
-/

namespace I386

variable {c : Cpu} {v : BitVec 32} {r r' : Reg} {x : Seg} {i : Nat}

attribute [ext] Cpu

/-! ## Words of the stack -/

section Flags

variable (c : Cpu) (n : Nat) (b : Bool)

@[simp] theorem Cpu.setFlag_regs : (c.setFlag n b).regs = c.regs := rfl

@[simp] theorem Cpu.setFlag_segs : (c.setFlag n b).segs = c.segs := rfl

@[simp] theorem Cpu.setFlag_mem : (c.setFlag n b).mem = c.mem := rfl

end Flags

@[simp] theorem Cpu.push_stack_zero (c : Cpu) (v : BitVec 32) : (c.push v).stack 0 = v := by
  rw [Cpu.stack, Cpu.push_mem, Cpu.push_regs, if_pos rfl]
  change load32 _ (_ + 0#32) = v
  rw [BitVec.add_zero]
  exact load32_store32 _ _ _

/-- A push moves the other words down by one. -/
theorem Cpu.push_stack_succ (c : Cpu) (v : BitVec 32) (h : i + 1 < 2 ^ 30) :
    (c.push v).stack (i + 1) = c.stack i := by
  have haddr : (c.push v).regs .esp + BitVec.ofNat 32 (4 * (i + 1)) =
      c.regs .esp + BitVec.ofNat 32 (4 * i) := by
    rw [Cpu.push_regs, if_pos rfl]
    bv_omega
  rw [Cpu.stack, Cpu.stack, haddr, Cpu.push_mem]
  apply load32_store32_of_ne
  intro j k he
  have hj := j.isLt
  have hk := k.isLt
  bv_omega

@[simp] theorem Cpu.setReg_stack (h : r ≠ .esp) : (c.setReg r v).stack i = c.stack i := by
  rw [Cpu.stack, Cpu.stack, Cpu.setReg_regs, if_neg h.symm, Cpu.setReg_mem]

@[simp] theorem Cpu.setSeg_stack (w : BitVec 16) : (c.setSeg x w).stack i = c.stack i := rfl

@[simp] theorem Cpu.setStatus_stack (o : Bool) : (c.setStatus v o).stack i = c.stack i := rfl

@[simp] theorem Cpu.setFlag_stack (n : Nat) (b : Bool) : (c.setFlag n b).stack i = c.stack i := rfl

/-- A push writes the word in front of the stack only. -/
theorem Cpu.push_mem_of_outside {a : BitVec 32} (room : 4 ≤ (c.regs .esp).toNat)
    (h : a.toNat + 4 < (c.regs .esp).toNat ∨ (c.regs .esp).toNat ≤ a.toNat) :
    (c.push v).mem a = c.mem a := by
  apply store32_of_ne
  intro j he
  have hj := j.isLt
  bv_omega

/-- Push several words, the first one first. -/
def Cpu.pushAll (c : Cpu) (vs : List (BitVec 32)) : Cpu := vs.foldl Cpu.push c

namespace Cpu

variable {vs : List (BitVec 32)}

theorem pushAll_regs (h : r ≠ .esp) : (c.pushAll vs).regs r = c.regs r := by
  induction vs generalizing c with
  | nil => rfl
  | cons v vs ih =>
      calc (c.pushAll (v :: vs)).regs r
        _ = (c.push v).regs r := ih
        _ = c.regs r := by rw [push_regs, if_neg h]

theorem pushAll_esp :
    (c.pushAll vs).regs .esp = c.regs .esp - BitVec.ofNat 32 (4 * vs.length) := by
  induction vs generalizing c with
  | nil => simp [pushAll]
  | cons v vs ih =>
      have htail : (c.pushAll (v :: vs)).regs .esp =
          (c.push v).regs .esp - BitVec.ofNat 32 (4 * vs.length) := ih
      rw [htail, push_regs, if_pos rfl, List.length_cons]
      bv_omega

/-- The words that were pushed, the last one first. -/
theorem pushAll_stack_lt (hlen : vs.length < 2 ^ 30) (h : i < vs.length) :
    (c.pushAll vs).stack i = vs[vs.length - 1 - i] := by
  induction vs using List.reverseRecOn generalizing i with
  | nil => cases h
  | append_singleton vs v ih =>
      have hlast : c.pushAll (vs ++ [v]) = (c.pushAll vs).push v := List.foldl_concat ..
      rw [List.length_append, List.length_singleton] at hlen h
      rw [hlast]
      cases i with
      | zero => simp
      | succ i =>
          have hi : (vs ++ [v]).length - 1 - (i + 1) = vs.length - 1 - i := by simp; omega
          rw [push_stack_succ _ _ (by omega), ih (by omega) (by omega)]
          simp only [hi]
          rw [List.getElem_append_left]

/-- Below them lies the stack as it was. -/
theorem pushAll_stack_add (c : Cpu) (vs : List (BitVec 32)) (h : i + vs.length < 2 ^ 30) :
    (c.pushAll vs).stack (i + vs.length) = c.stack i := by
  induction vs using List.reverseRecOn with
  | nil => rfl
  | append_singleton vs v ih =>
      have hlast : c.pushAll (vs ++ [v]) = (c.pushAll vs).push v := List.foldl_concat ..
      rw [List.length_append, List.length_singleton] at h
      rw [hlast, List.length_append, List.length_singleton, ← Nat.add_assoc,
        push_stack_succ _ _ (by omega)]
      exact ih (by omega)

theorem pushAll_mem_of_outside {a : BitVec 32} (room : 4 * vs.length ≤ (c.regs .esp).toNat)
    (h : a.toNat + 4 * vs.length < (c.regs .esp).toNat ∨ (c.regs .esp).toNat ≤ a.toNat) :
    (c.pushAll vs).mem a = c.mem a := by
  induction vs generalizing c with
  | nil => rfl
  | cons v vs ih =>
      rw [List.length_cons] at room h
      have hesp : ((c.push v).regs .esp).toNat = (c.regs .esp).toNat - 4 := by
        rw [push_regs, if_pos rfl]
        bv_omega
      calc (c.pushAll (v :: vs)).mem a
        _ = (c.push v).mem a := ih (by omega) (by omega)
        _ = c.mem a := push_mem_of_outside (by omega) (by omega)

end Cpu

/-- A function that leaves its arguments alone returns to the stack of its caller, as far as
this lies below `top`. -/
theorem Cdecl.stack_eq {top : BitVec 32} {f : Cpu → Cpu} (h : Cdecl 0 top f) (c : Cpu)
    (hroom : (c.regs .esp).toNat + 4 * (i + 2) ≤ top.toNat) : (f c).stack i = c.stack (i + 1) := by
  have htop := top.isLt
  have haddr : (f c).regs .esp + BitVec.ofNat 32 (4 * i) =
      c.regs .esp + BitVec.ofNat 32 (4 * (i + 1)) := by
    rw [h.esp]
    bv_omega
  rw [Cpu.stack, Cpu.stack, haddr]
  refine load32_congr fun j => h.stack c _ ?_ ?_
  · have hj := j.isLt
    bv_omega
  · have hj := j.isLt
    bv_omega

/-! ## Instructions -/

/-- `pop %r`. -/
def Cpu.pop (c : Cpu) (r : Reg) : Cpu :=
  (c.setReg .esp (c.regs .esp + 4)).setReg r (c.stack 0)

/-- `pusha`: all general registers, with the stack pointer as it was. -/
def Cpu.pusha (c : Cpu) : Cpu :=
  c.pushAll ([Reg.eax, .ecx, .edx, .ebx, .esp, .ebp, .esi, .edi].map c.regs)

/-- `popa`: the stack pointer that `pusha` has saved is passed over. -/
def Cpu.popa (c : Cpu) : Cpu :=
  { c with regs := fun
      | .edi => c.stack 0
      | .esi => c.stack 1
      | .ebp => c.stack 2
      | .ebx => c.stack 4
      | .edx => c.stack 5
      | .ecx => c.stack 6
      | .eax => c.stack 7
      | .esp => c.regs .esp + 32 }

@[simp] theorem Cpu.pop_regs (c : Cpu) (r r' : Reg) : (c.pop r).regs r' =
    if r' = r then c.stack 0 else if r' = .esp then c.regs .esp + 4 else c.regs r' := rfl

@[simp] theorem Cpu.pop_segs (c : Cpu) (r : Reg) : (c.pop r).segs = c.segs := rfl

@[simp] theorem Cpu.pop_mem (c : Cpu) (r : Reg) : (c.pop r).mem = c.mem := rfl

/-- Moving the stack pointer up passes words over. -/
theorem Cpu.stack_of_esp {k : Cpu} {n : Nat} (hmem : k.mem = c.mem)
    (hesp : k.regs .esp = c.regs .esp + BitVec.ofNat 32 (4 * n)) (i : Nat) :
    k.stack i = c.stack (i + n) := by
  have haddr : k.regs .esp + BitVec.ofNat 32 (4 * i) =
      c.regs .esp + BitVec.ofNat 32 (4 * (i + n)) := by
    rw [hesp, BitVec.add_assoc, ← BitVec.ofNat_add]
    congr 2
    omega
  rw [Cpu.stack, Cpu.stack, haddr, hmem]

theorem Cpu.pop_stack (h : r ≠ .esp) (i : Nat) : (c.pop r).stack i = c.stack (i + 1) := by
  refine Cpu.stack_of_esp (n := 1) (Cpu.pop_mem c r) ?_ i
  rw [Cpu.pop_regs, if_neg h.symm, if_pos rfl]
  rfl

@[simp] theorem Cpu.popa_segs (c : Cpu) : c.popa.segs = c.segs := rfl

@[simp] theorem Cpu.popa_mem (c : Cpu) : c.popa.mem = c.mem := rfl

/-- What an instruction that neither jumps nor calls does to the processor. -/
def Cpu.exec (c : Cpu) (i : Instr) : Cpu :=
  (Run.exec (fun _ => 0) (fun _ => id) ⟨c, 0, [], []⟩ i).cpu

section

variable (c : Cpu) (r : Reg) (x : Seg)

@[simp] theorem Cpu.exec_push : c.exec (.push r) = c.push (c.regs r) := rfl

@[simp] theorem Cpu.exec_xor (src dst : Reg) : c.exec (.xor src dst) =
    (c.setReg dst (c.regs dst ^^^ c.regs src)).setStatus (c.regs dst ^^^ c.regs src) false := rfl

@[simp] theorem Cpu.exec_movFromSeg :
    c.exec (.movFromSeg x r) = c.setReg r (Run.withLow (c.regs r) (c.segs x)) := rfl

@[simp] theorem Cpu.exec_mov16 (imm : BitVec 16) :
    c.exec (.mov16 imm r) = c.setReg r (Run.withLow (c.regs r) imm) := rfl

@[simp] theorem Cpu.exec_movToSeg :
    c.exec (.movToSeg r x) = c.setSeg x ((c.regs r).setWidth 16) := rfl

@[simp] theorem Cpu.exec_add (imm : BitVec 32) : c.exec (.add imm r) =
    (c.setReg r (c.regs r + imm)).setStatus (c.regs r + imm) ((c.regs r).saddOverflow imm) := rfl

end

theorem Run.withLow_setWidth (v : BitVec 32) (low : BitVec 16) :
    (Run.withLow v low).setWidth 16 = low := by
  apply BitVec.eq_of_getLsbD_eq
  intro i hi
  have hmask : (0xFFFF0000 : BitVec 32).getLsbD i = false := by
    have h : ∀ j : Fin 16, (0xFFFF0000 : BitVec 32).getLsbD j = false := by decide
    exact h ⟨i, hi⟩
  simp only [Run.withLow, BitVec.getLsbD_setWidth, BitVec.getLsbD_or, BitVec.getLsbD_and, hmask,
    Bool.and_false, Bool.false_or, hi, decide_true, Bool.true_and]
  simp [show i < 32 by omega]

/-- The instructions of a handler that saves all registers. -/
inductive FrameInstr where
  | plain (i : Instr)
  | cli
  | sti
  | pushImm (imm : BitVec 32)
  | pusha
  | popa
  | pop (r : Reg)
  /-- `movl a, %r`. -/
  | loadAbs (a : BitVec 32) (r : Reg)
  /-- `call *%r`, where the assembler placed the next instruction at `ret`. -/
  | callReg (r : Reg) (ret : BitVec 32)

/-- A handler in execution, with the functions called so far and the states they were entered
in. -/
structure Trace where
  cpu : Cpu
  calls : List (BitVec 32 × Cpu)

/-- Go on with another state. -/
def Trace.to (x : Trace) (c : Cpu) : Trace := { x with cpu := c }

def Trace.exec (callee : BitVec 32 → Cpu → Cpu) (x : Trace) : FrameInstr → Trace
  | .plain i => x.to (x.cpu.exec i)
  | .cli => x.to (x.cpu.setFlag 9 false)
  | .sti => x.to (x.cpu.setFlag 9 true)
  | .pushImm imm => x.to (x.cpu.push imm)
  | .pusha => x.to x.cpu.pusha
  | .popa => x.to x.cpu.popa
  | .pop r => x.to (x.cpu.pop r)
  | .loadAbs a r => x.to (x.cpu.setReg r (load32 x.cpu.mem a))
  | .callReg r ret =>
      let target := x.cpu.regs r
      let entry := { x.cpu.push ret with eip := target }
      ⟨callee target entry, x.calls ++ [(target, entry)]⟩

/-! ## Interrupts -/

/-- An interrupt raised in kernel mode through an interrupt gate: the stack stays. -/
def Cpu.interruptInner (c : Cpu) (cs0 : BitVec 16) (handler : BitVec 32) : Cpu :=
  let k := c.push c.eflags
  let k := k.push ((c.segs .cs).setWidth 32)
  let k := k.push c.eip
  -- TF, IF, NT, RF and VM are cleared
  { k.setSeg .cs cs0 with eip := handler, eflags := c.eflags &&& ~~~0x34300 }

/-- The error code that some exceptions leave on top of the saved state. -/
def Cpu.pushError (c : Cpu) : Option (BitVec 32) → Cpu
  | some e => c.push e
  | none => c

namespace Cpu

section Inner

variable (c : Cpu) (cs0 : BitVec 16) (handler : BitVec 32)

theorem interruptInner_regs : (c.interruptInner cs0 handler).regs =
    (c.pushAll [c.eflags, (c.segs .cs).setWidth 32, c.eip]).regs := rfl

theorem interruptInner_mem : (c.interruptInner cs0 handler).mem =
    (c.pushAll [c.eflags, (c.segs .cs).setWidth 32, c.eip]).mem := rfl

theorem interruptInner_stack (i : Nat) : (c.interruptInner cs0 handler).stack i =
    (c.pushAll [c.eflags, (c.segs .cs).setWidth 32, c.eip]).stack i := rfl

end Inner

section Outer

variable (c : Cpu) (esp0 : BitVec 32) (ss0 cs0 : BitVec 16) (handler : BitVec 32)

/-- What an interrupt in user mode leaves on the stack that it enters. -/
def callerWords : List (BitVec 32) :=
  [(c.segs .ss).setWidth 32, c.regs .esp, c.eflags, (c.segs .cs).setWidth 32, c.eip]

theorem interrupt_regs : (c.interrupt esp0 ss0 cs0 handler).regs =
    ((c.setReg .esp esp0).pushAll c.callerWords).regs := rfl

theorem interrupt_mem : (c.interrupt esp0 ss0 cs0 handler).mem =
    ((c.setReg .esp esp0).pushAll c.callerWords).mem := rfl

theorem interrupt_stack (i : Nat) : (c.interrupt esp0 ss0 cs0 handler).stack i =
    ((c.setReg .esp esp0).pushAll c.callerWords).stack i := rfl

end Outer

end Cpu

end I386
