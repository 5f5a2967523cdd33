import Jkos.Lib.I386Frame
import Jkos.Syscall.Dispatch

/-!
# Interrupt handlers

The macro `ISR` of `interrupt.S`, instruction by instruction. A handler saves what was
interrupted, calls the function that `isr_callback_table` holds for its number, and restores
what it has saved. The functions of the table are a parameter.
-/

namespace Jkos.Interrupt

open I386 Syscall

/-- Where the linker placed `isr_callback_table` and the handlers. The kernel image is loaded
at 1 MB and ends below the heap. -/
structure Image where
  table : Word
  /-- The address of each handler. -/
  isr : Nat → Word
  /-- The address behind the call in each handler. -/
  ret : Nat → Word
  low : table.toNat + 4 * 256 ≤ kernelHeapBegin.toNat

/-- Where the function for an interrupt is stored. -/
def Image.slot (im : Image) (int : Nat) : Word := im.table + BitVec.ofNat 32 (int * 4)

/-- Load the selector in `ax` into all data segments. -/
def loadSegments : List FrameInstr :=
  [.plain (.movToSeg .eax .ds), .plain (.movToSeg .eax .es), .plain (.movToSeg .eax .fs),
    .plain (.movToSeg .eax .gs)]

/-- Build an `Isr_registers_t` on the stack and fetch the function to call. -/
def saveRegisters (im : Image) (int : Nat) (errCode : Bool) : List FrameInstr :=
  [.cli] ++ (if errCode then [] else [.pushImm 0]) ++ [.pushImm (BitVec.ofNat 32 int), .pusha,
    .plain (.xor .eax .eax), .plain (.movFromSeg .ds .eax), .plain (.push .eax),
    .plain (.mov16 kernelDataSelector .eax)] ++ loadSegments ++ [.loadAbs (im.slot int) .eax]

/-- Restore everything and drop the number and the error code. -/
def restoreRegisters : List FrameInstr :=
  [.pop .eax] ++ loadSegments ++ [.popa, .plain (.add 8 .esp), .sti]

/-- `ISR int, err_code`, up to its `iret`. -/
def isr (im : Image) (int : Nat) (errCode : Bool) : List FrameInstr :=
  saveRegisters im int errCode ++ [.callReg .eax (im.ret int)] ++ restoreRegisters

/-- The interrupts whose handlers are `ISR \n, 1`. -/
def withErrorCode : List Nat := [8, 10, 11, 12, 13, 14]

/-- `Isr_registers_t`. -/
structure IsrRegisters where
  ds : Word
  edi : Word
  esi : Word
  ebp : Word
  esp : Word
  ebx : Word
  edx : Word
  ecx : Word
  eax : Word
  intNo : Word
  errCode : Word
  eip : Word
  cs : Word
  eflags : Word
  useresp : Word
  ss : Word
  deriving DecidableEq

/-- The structure that starts at word `i` of the stack. -/
def IsrRegisters.ofStack (c : Cpu) (i : Nat) : IsrRegisters :=
  ⟨c.stack i, c.stack (i + 1), c.stack (i + 2), c.stack (i + 3), c.stack (i + 4), c.stack (i + 5),
    c.stack (i + 6), c.stack (i + 7), c.stack (i + 8), c.stack (i + 9), c.stack (i + 10),
    c.stack (i + 11), c.stack (i + 12), c.stack (i + 13), c.stack (i + 14), c.stack (i + 15)⟩

/-- The structure for an interrupt, where `b` is the processor after it has saved its state,
without the error code `e`. -/
def IsrRegisters.saved (int : Nat) (e : Option Word) (b : Cpu) : IsrRegisters :=
  ⟨(b.segs .ds).setWidth 32, b.regs .edi, b.regs .esi, b.regs .ebp, b.regs .esp - 8, b.regs .ebx,
    b.regs .edx, b.regs .ecx, b.regs .eax, BitVec.ofNat 32 int, e.getD 0, b.stack 0, b.stack 1,
    b.stack 2, b.stack 3, b.stack 4⟩

/-- A handler run to its `iret`. -/
def handle (im : Image) (callee : Word → Cpu → Cpu) (int : Nat) (e : Option Word) (b : Cpu) :
    Trace :=
  (isr im int (decide (int ∈ withErrorCode))).foldl (Trace.exec callee) ⟨b.pushError e, []⟩

variable {im : Image} {callee : Word → Cpu → Cpu} {b : Cpu} {int i : Nat} {e : Option Word}

/-! ## The parts of a handler -/

/-- The words a handler pushes, the first one first. -/
def frame (int : Nat) (e : Option Word) (b : Cpu) : List Word :=
  [e.getD 0, BitVec.ofNat 32 int, b.regs .eax, b.regs .ecx, b.regs .edx, b.regs .ebx,
    b.regs .esp - 8, b.regs .ebp, b.regs .esi, b.regs .edi, (b.segs .ds).setWidth 32]

/-- The state in which a handler makes its call. -/
def prepared (im : Image) (callee : Word → Cpu → Cpu) (int : Nat) (e : Option Word) (b : Cpu) :
    Trace :=
  (saveRegisters im int e.isSome).foldl (Trace.exec callee) ⟨b.pushError e, []⟩

theorem prepared_congr : prepared im callee int e b = prepared im (fun _ => id) int e b := by
  cases e <;> rfl

theorem prepared_calls : (prepared im callee int e b).calls = [] := by
  cases e <;> rfl

theorem prepared_segs (x : Seg) : (prepared im callee int e b).cpu.segs x =
    if x ∈ [Seg.ds, .es, .fs, .gs] then kernelDataSelector else b.segs x := by
  cases e <;> cases x <;>
    simp [prepared, saveRegisters, loadSegments, Trace.exec, Trace.to, Run.withLow_setWidth,
      Cpu.pusha, Cpu.pushAll, Cpu.pushError]

theorem prepared_mem :
    (prepared im callee int e b).cpu.mem = (b.pushAll (frame int e b)).mem := by
  have hesp : b.regs .esp - 8 = b.regs .esp - 4 - 4 := by bv_omega
  rw [frame, hesp]
  cases e <;>
    simp [prepared, saveRegisters, loadSegments, Trace.exec, Trace.to, Run.withLow, Cpu.pusha,
      Cpu.pushAll, Cpu.pushError]

theorem prepared_esp :
    (prepared im callee int e b).cpu.regs .esp = (b.pushAll (frame int e b)).regs .esp := by
  cases e <;>
    simp [prepared, saveRegisters, loadSegments, Trace.exec, Trace.to, frame, Cpu.pusha,
      Cpu.pushAll, Cpu.pushError]

theorem prepared_stack (i : Nat) :
    (prepared im callee int e b).cpu.stack i = (b.pushAll (frame int e b)).stack i := by
  rw [Cpu.stack, Cpu.stack, prepared_mem, prepared_esp]

/-- Everything is where it was before. -/
theorem restoreRegisters_spec (callee : Word → Cpu → Cpu) (x : Trace) :
    let y := restoreRegisters.foldl (Trace.exec callee) x
    y.calls = x.calls ∧ y.cpu.mem = x.cpu.mem ∧ y.cpu.regs .esp = x.cpu.regs .esp + 44 ∧
    (y.cpu.regs .edi = x.cpu.stack 1 ∧ y.cpu.regs .esi = x.cpu.stack 2 ∧
      y.cpu.regs .ebp = x.cpu.stack 3 ∧ y.cpu.regs .ebx = x.cpu.stack 5 ∧
      y.cpu.regs .edx = x.cpu.stack 6 ∧ y.cpu.regs .ecx = x.cpu.stack 7 ∧
      y.cpu.regs .eax = x.cpu.stack 8) ∧
    ∀ s, y.cpu.segs s =
      if s ∈ [Seg.ds, .es, .fs, .gs] then (x.cpu.stack 0).setWidth 16 else x.cpu.segs s := by
  refine ⟨rfl, rfl, ?_, ⟨?_, ?_, ?_, ?_, ?_, ?_, ?_⟩, fun s => ?_⟩
  · simp [restoreRegisters, loadSegments, Trace.exec, Trace.to, Cpu.popa]
    bv_omega
  iterate 7
    simp [restoreRegisters, loadSegments, Trace.exec, Trace.to, Cpu.popa, Cpu.pop_stack]
  · cases s <;> simp [restoreRegisters, loadSegments, Trace.exec, Trace.to]

/-! ## The call -/

/-- The state in which the function for an interrupt is entered. -/
def entry (im : Image) (int : Nat) (e : Option Word) (b : Cpu) : Cpu :=
  let k := (prepared im (fun _ => id) int e b).cpu
  { k.push (im.ret int) with eip := k.regs .eax }

theorem entry_esp : (entry im int e b).regs .esp = b.regs .esp - 48 := by
  change (prepared im (fun _ => id) int e b).cpu.regs .esp - 4 = _
  rw [prepared_esp, Cpu.pushAll_esp, frame]
  simp only [List.length_cons, List.length_nil]
  bv_omega

theorem entry_segs (x : Seg) : (entry im int e b).segs x =
    if x ∈ [Seg.ds, .es, .fs, .gs] then kernelDataSelector else b.segs x :=
  prepared_segs x

theorem entry_stack (h : i + 1 < 2 ^ 30) :
    (entry im int e b).stack (i + 1) = (b.pushAll (frame int e b)).stack i := by
  have hpush := (prepared im (fun _ => id) int e b).cpu.push_stack_succ (im.ret int) h
  rw [prepared_stack] at hpush
  exact hpush

/-- The argument of the function is what was interrupted. -/
theorem ofStack_entry : IsrRegisters.ofStack (entry im int e b) 1 = .saved int e b := by
  have hword : ∀ i < 16, (entry im int e b).stack (1 + i) =
      (b.pushAll (frame int e b)).stack i := by
    intro i hi
    rw [Nat.add_comm]
    exact entry_stack (by omega)
  have hlen : (frame int e b).length = 11 := rfl
  have pushed : ∀ i, (h : i < 11) → (entry im int e b).stack (1 + i) =
      (frame int e b)[10 - i] := by
    intro i hi
    exact (hword i (by omega)).trans (Cpu.pushAll_stack_lt (by simp [frame]) hi)
  have below : ∀ i < 5, (entry im int e b).stack (1 + (i + 11)) = b.stack i := by
    intro i hi
    refine (hword (i + 11) (by omega)).trans ?_
    exact Cpu.pushAll_stack_add b (frame int e b) (by simp [frame]; omega)
  simp only [IsrRegisters.ofStack, IsrRegisters.saved, IsrRegisters.mk.injEq]
  exact ⟨pushed 0 (by decide), pushed 1 (by decide), pushed 2 (by decide), pushed 3 (by decide),
    pushed 4 (by decide), pushed 5 (by decide), pushed 6 (by decide), pushed 7 (by decide),
    pushed 8 (by decide), pushed 9 (by decide), pushed 10 (by decide), below 0 (by decide),
    below 1 (by decide), below 2 (by decide), below 3 (by decide), below 4 (by decide)⟩

/-- A handler writes in front of the stack only. -/
theorem entry_mem {a : Word} (room : 48 ≤ (b.regs .esp).toNat)
    (h : a.toNat + 48 < (b.regs .esp).toNat ∨ (b.regs .esp).toNat ≤ a.toNat) :
    (entry im int e b).mem a = b.mem a := by
  have hesp : ((prepared im (fun _ => id) int e b).cpu.regs .esp).toNat =
      (b.regs .esp).toNat - 44 := by
    rw [prepared_esp, Cpu.pushAll_esp]
    simp only [frame, List.length_cons, List.length_nil]
    bv_omega
  calc (entry im int e b).mem a
    _ = (prepared im (fun _ => id) int e b).cpu.mem a :=
        Cpu.push_mem_of_outside (by omega) (by omega)
    _ = (b.pushAll (frame int e b)).mem a := by rw [prepared_mem]
    _ = b.mem a := by
        apply Cpu.pushAll_mem_of_outside
        · simp only [frame, List.length_cons, List.length_nil]
          omega
        · simp only [frame, List.length_cons, List.length_nil]
          omega

/-- The function called is the one that the table names. -/
theorem entry_eip (hint : int < 256) (room : kernelHeapEnd ≤ b.regs .esp) :
    (entry im int e b).eip = load32 b.mem (im.slot int) := by
  have hfetch : (entry im int e b).eip =
      load32 (prepared im (fun _ => id) int e b).cpu.mem (im.slot int) := by
    cases e <;> rfl
  have hlow := im.low
  have hend : (0xFFC00000 : Word).toNat ≤ (b.regs .esp).toNat := room
  rw [kernelHeapBegin_eq] at hlow
  rw [hfetch, prepared_mem]
  apply load32_congr
  intro j
  have hj := j.isLt
  apply Cpu.pushAll_mem_of_outside
  · simp only [frame, List.length_cons, List.length_nil]
    bv_omega
  · simp only [frame, List.length_cons, List.length_nil, Image.slot]
    bv_omega

/-- The state in which the function returns to the handler. -/
def returned (im : Image) (callee : Word → Cpu → Cpu) (int : Nat) (e : Option Word) (b : Cpu) :
    Cpu :=
  callee (entry im int e b).eip (entry im int e b)

/-- What the function has left of its argument. -/
def left (im : Image) (callee : Word → Cpu → Cpu) (int : Nat) (e : Option Word) (b : Cpu) :
    IsrRegisters :=
  .ofStack (returned im callee int e b) 0

theorem handle_eq (he : e.isSome = decide (int ∈ withErrorCode)) :
    handle im callee int e b = restoreRegisters.foldl (Trace.exec callee)
      ⟨returned im callee int e b, [((entry im int e b).eip, entry im int e b)]⟩ := by
  have hcall : Trace.exec callee (prepared im callee int e b) (.callReg .eax (im.ret int)) =
      ⟨returned im callee int e b, [((entry im int e b).eip, entry im int e b)]⟩ := by
    rw [prepared_congr]
    simp only [Trace.exec, prepared_calls, List.nil_append]
    rfl
  rw [handle, ← he, isr, List.foldl_append, List.foldl_append, ← hcall]
  rfl

/-- The handler at its `iret`. -/
theorem handle_spec (im : Image) (b : Cpu) (he : e.isSome = decide (int ∈ withErrorCode))
    (hesp : ∀ f c, (callee f c).regs .esp = c.regs .esp + 4) :
    let k := (handle im callee int e b).cpu
    let r := left im callee int e b
    k.mem = (returned im callee int e b).mem ∧ k.regs .esp = b.regs .esp ∧
    (k.regs .edi = r.edi ∧ k.regs .esi = r.esi ∧ k.regs .ebp = r.ebp ∧ k.regs .ebx = r.ebx ∧
      k.regs .edx = r.edx ∧ k.regs .ecx = r.ecx ∧ k.regs .eax = r.eax) ∧
    (∀ s, k.segs s = if s ∈ [Seg.ds, .es, .fs, .gs] then r.ds.setWidth 16
      else (returned im callee int e b).segs s) ∧
    ∀ i, k.stack i = (returned im callee int e b).stack (i + 11) := by
  obtain ⟨-, mem, esp, regs, segs⟩ := restoreRegisters_spec callee
    ⟨returned im callee int e b, [((entry im int e b).eip, entry im int e b)]⟩
  rw [← handle_eq he] at mem esp regs segs
  refine ⟨mem, ?_, regs, segs, fun i => Cpu.stack_of_esp (n := 11) mem esp i⟩
  rw [esp]
  simp only [returned, hesp, entry_esp]
  bv_omega

end Jkos.Interrupt
