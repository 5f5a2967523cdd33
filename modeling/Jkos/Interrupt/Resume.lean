import Jkos.Interrupt.Stub

/-!
# What is resumed after an interrupt

An interrupt is raised in user mode or in the kernel, a handler runs, and its `iret` resumes
what was interrupted. The function that a handler calls receives what was saved by value, and
what it leaves of its argument is what the handler restores.
-/

namespace Jkos.Interrupt

open I386 Syscall

variable {im : Image} {callee : Word → Cpu → Cpu} {c : Cpu} {int i : Nat} {e : Option Word}

/-- The processor runs in kernel mode. -/
def InKernel (c : Cpu) : Prop := c.segs .cs &&& 3 = 0

instance : Decidable (InKernel c) := inferInstanceAs (Decidable (_ = _))

/-- An interrupt as the processor raises it, with the stack that the TSS names. -/
def raise (im : Image) (int : Nat) (c : Cpu) : Cpu :=
  if InKernel c then c.interruptInner kernelCodeSelector (im.isr int)
  else c.interrupt kernelStackPos kernelDataSelector kernelCodeSelector (im.isr int)

/-- An interrupt from beginning to end. -/
def serve (im : Image) (callee : Word → Cpu → Cpu) (int : Nat) (e : Option Word) (c : Cpu) : Cpu :=
  (handle im callee int e (raise im int c)).cpu.iret kernelDataSelector

/-- The stack on which an interrupt is served ends here. -/
def stackTop (c : Cpu) : Word := if InKernel c then c.regs .esp else kernelStackPos

/-- What the processor saves. -/
def savedWords (c : Cpu) : List Word :=
  if InKernel c then [c.eflags, (c.segs .cs).setWidth 32, c.eip] else c.callerWords

/-- An interrupt in the kernel finds a stack with room for the handler, on which a function is
running. -/
def Room (c : Cpu) : Prop :=
  InKernel c → kernelHeapEnd.toNat + 68 ≤ (c.regs .esp).toNat ∧
    (c.regs .esp).toNat + 8 ≤ kernelStackPos.toNat

/-- `Isr_registers_t` for an interrupt. In the kernel the processor saves no stack pointer, and
the last two fields are words of the interrupted function. -/
def IsrRegisters.interrupted (int : Nat) (e : Option Word) (c : Cpu) : IsrRegisters :=
  ⟨(c.segs .ds).setWidth 32, c.regs .edi, c.regs .esi, c.regs .ebp,
    stackTop c - BitVec.ofNat 32 (4 * (savedWords c).length) - 8, c.regs .ebx, c.regs .edx,
    c.regs .ecx, c.regs .eax, BitVec.ofNat 32 int, e.getD 0, c.eip, (c.segs .cs).setWidth 32,
    c.eflags, if InKernel c then c.stack 0 else c.regs .esp,
    if InKernel c then c.stack 1 else (c.segs .ss).setWidth 32⟩

/-- What `iret` makes of a structure where `c` was interrupted. -/
def IsrRegisters.resume (r : IsrRegisters) (c : Cpu) (mem : Word → Byte) : Cpu where
  regs := fun
    | .edi => r.edi
    | .esi => r.esi
    | .ebp => r.ebp
    | .ebx => r.ebx
    | .edx => r.edx
    | .ecx => r.ecx
    | .eax => r.eax
    | .esp => if InKernel c then c.regs .esp else r.useresp
  segs := fun
    | .cs => r.cs.setWidth 16
    | .ss => if InKernel c then c.segs .ss else r.ss.setWidth 16
    | _ =>
        -- a selector of the kernel's data segment is taken away from a program in user mode
        if ¬ InKernel c ∧ r.ds.setWidth 16 >>> 3 = kernelDataSelector >>> 3 then 0
        else r.ds.setWidth 16
  eip := r.eip
  eflags := r.eflags
  mem := mem

/-! ## Raising an interrupt -/

theorem savedWords_length (c : Cpu) : (savedWords c).length = if InKernel c then 3 else 5 := by
  unfold savedWords
  split <;> rfl

theorem raise_regs {r : Reg} (h : r ≠ .esp) : (raise im int c).regs r = c.regs r := by
  unfold raise
  split
  · rw [Cpu.interruptInner_regs, Cpu.pushAll_regs h]
  · rw [Cpu.interrupt_regs, Cpu.pushAll_regs h, Cpu.setReg_regs, if_neg h]

theorem raise_esp : (raise im int c).regs .esp =
    stackTop c - BitVec.ofNat 32 (4 * (savedWords c).length) := by
  unfold raise stackTop savedWords
  split
  · rw [Cpu.interruptInner_regs, Cpu.pushAll_esp]
  · rw [Cpu.interrupt_regs, Cpu.pushAll_esp]
    rfl

theorem raise_ds : (raise im int c).segs .ds = c.segs .ds := by
  unfold raise
  split <;> rfl

theorem raise_ss (h : InKernel c) : (raise im int c).segs .ss = c.segs .ss := by
  unfold raise
  rw [if_pos h]
  rfl

theorem raise_mem {a : Word} (room : 20 ≤ (stackTop c).toNat)
    (h : a.toNat + 20 < (stackTop c).toNat ∨ (stackTop c).toNat ≤ a.toNat) :
    (raise im int c).mem a = c.mem a := by
  unfold stackTop at room h
  unfold raise
  split at room
  · next hk =>
      rw [if_pos hk] at h
      rw [if_pos hk, Cpu.interruptInner_mem]
      apply Cpu.pushAll_mem_of_outside <;> simp only [List.length_cons, List.length_nil] <;> omega
  · next hk =>
      rw [if_neg hk] at h
      rw [if_neg hk, Cpu.interrupt_mem]
      apply Cpu.pushAll_mem_of_outside <;>
        simp only [Cpu.callerWords, List.length_cons, List.length_nil, Cpu.setReg_regs, if_true] <;>
        omega

theorem raise_stack (h : i < (savedWords c).length) :
    (raise im int c).stack i = (savedWords c)[(savedWords c).length - 1 - i] := by
  have hlen := savedWords_length c
  unfold raise savedWords at *
  split
  · next hk =>
      simp only [if_pos hk] at h hlen ⊢
      rw [Cpu.interruptInner_stack]
      exact Cpu.pushAll_stack_lt (by simp) h
  · next hk =>
      simp only [if_neg hk] at h hlen ⊢
      rw [Cpu.interrupt_stack]
      exact Cpu.pushAll_stack_lt (by simp [Cpu.callerWords]) h

/-- Below lies the stack of the interrupted function. -/
theorem raise_stack_add (hk : InKernel c) (h : i + 3 < 2 ^ 30) :
    (raise im int c).stack (i + 3) = c.stack i := by
  unfold raise
  rw [if_pos hk, Cpu.interruptInner_stack]
  exact Cpu.pushAll_stack_add c [c.eflags, (c.segs .cs).setWidth 32, c.eip] h

theorem saved_raise : IsrRegisters.saved int e (raise im int c) = .interrupted int e c := by
  have hlen := savedWords_length c
  have words : (raise im int c).stack 0 = c.eip ∧
      (raise im int c).stack 1 = (c.segs .cs).setWidth 32 ∧
      (raise im int c).stack 2 = c.eflags ∧
      (raise im int c).stack 3 = (if InKernel c then c.stack 0 else c.regs .esp) ∧
      (raise im int c).stack 4 = if InKernel c then c.stack 1 else (c.segs .ss).setWidth 32 := by
    by_cases hk : InKernel c
    · simp only [if_pos hk] at hlen ⊢
      rw [raise_stack (by omega), raise_stack (by omega), raise_stack (by omega),
        raise_stack_add (i := 0) hk (by omega), raise_stack_add (i := 1) hk (by omega)]
      simp [savedWords, hk]
    · simp only [if_neg hk] at hlen ⊢
      rw [raise_stack (by omega), raise_stack (by omega), raise_stack (by omega),
        raise_stack (by omega), raise_stack (by omega)]
      simp [savedWords, hk, Cpu.callerWords]
  obtain ⟨eip, cs, eflags, useresp, ss⟩ := words
  simp only [IsrRegisters.saved, IsrRegisters.interrupted, raise_ds, raise_esp, eip, cs, eflags,
    useresp, ss]
  simp only [raise_regs, ne_eq, reduceCtorEq, not_false_eq_true]

/-! ## The handler -/

section Room

variable (room : Room c)
include room

theorem Room.stackTop_bounds :
    kernelHeapEnd.toNat + 68 ≤ (stackTop c).toNat ∧ (stackTop c).toNat ≤ kernelStackPos.toNat := by
  unfold stackTop
  split
  · next hk =>
      obtain ⟨low, high⟩ := room hk
      exact ⟨low, by omega⟩
  · decide

theorem Room.raise_esp_toNat (im : Image) (int : Nat) : ((raise im int c).regs .esp).toNat =
    (stackTop c).toNat - 4 * (savedWords c).length := by
  have hend : kernelHeapEnd.toNat = 0xFFC00000 := by decide
  obtain ⟨low, -⟩ := room.stackTop_bounds
  have hlen : (savedWords c).length ≤ 5 := by
    rw [savedWords_length]
    split <;> decide
  rw [raise_esp]
  bv_omega

theorem Room.raise_mem {a : Word} (h : a.toNat + 20 < (stackTop c).toNat ∨
    (stackTop c).toNat ≤ a.toNat) : (raise im int c).mem a = c.mem a := by
  have hend : kernelHeapEnd.toNat = 0xFFC00000 := by decide
  obtain ⟨low, -⟩ := room.stackTop_bounds
  exact Interrupt.raise_mem (by omega) h

/-- The function called is the one that the table names. -/
theorem Room.target (im : Image) (e : Option Word) (hint : int < 256) :
    (entry im int e (raise im int c)).eip = load32 c.mem (im.slot int) := by
  have hend : kernelHeapEnd.toNat = 0xFFC00000 := by decide
  obtain ⟨low, -⟩ := room.stackTop_bounds
  have hlow := im.low
  rw [kernelHeapBegin_eq] at hlow
  have hesp := room.raise_esp_toNat im int
  have hlen : (savedWords c).length ≤ 5 := by
    rw [savedWords_length]
    split <;> decide
  rw [entry_eip hint (by rw [BitVec.le_def]; omega)]
  apply load32_congr
  intro j
  have hj := j.isLt
  apply room.raise_mem
  simp only [Image.slot]
  bv_omega

/-- Up to the call, only the stack in front of what was interrupted is written. -/
theorem Room.entry_mem {a : Word} (h : a.toNat + 68 < (stackTop c).toNat ∨
    (stackTop c).toNat ≤ a.toNat) : (entry im int e (raise im int c)).mem a = c.mem a := by
  have hend : kernelHeapEnd.toNat = 0xFFC00000 := by decide
  obtain ⟨low, -⟩ := room.stackTop_bounds
  have hesp := room.raise_esp_toNat im int
  have hlen : (savedWords c).length ≤ 5 := by
    rw [savedWords_length]
    split <;> decide
  calc (entry im int e (raise im int c)).mem a
    _ = (raise im int c).mem a := Interrupt.entry_mem (by omega) (by omega)
    _ = c.mem a := room.raise_mem (by omega)

end Room

theorem serve_eq (im : Image) (c : Cpu) (he : e.isSome = decide (int ∈ withErrorCode))
    (hesp : ∀ f k, (callee f k).regs .esp = k.regs .esp + 4)
    (hss : ∀ f k, (callee f k).segs .ss = k.segs .ss)
    (mode : (left im callee int e (raise im int c)).cs.setWidth 16 &&& 3 = 0 ↔ InKernel c) :
    serve im callee int e c = (left im callee int e (raise im int c)).resume c
      (returned im callee int e (raise im int c)).mem := by
  obtain ⟨mem, esp, ⟨edi, esi, ebp, ebx, edx, ecx, eax⟩, segs, stack⟩ :=
    handle_spec im (raise im int c) he hesp
  have hcs : (handle im callee int e (raise im int c)).cpu.stack 1 =
      (left im callee int e (raise im int c)).cs := stack 1
  have regs : ∀ r, r ≠ .esp → (handle im callee int e (raise im int c)).cpu.regs r =
      ((left im callee int e (raise im int c)).resume c
        (returned im callee int e (raise im int c)).mem).regs r := by
    intro r hr
    cases r with
    | eax => exact eax
    | ebx => exact ebx
    | ecx => exact ecx
    | edx => exact edx
    | esi => exact esi
    | edi => exact edi
    | ebp => exact ebp
    | esp => exact absurd rfl hr
  unfold serve
  by_cases hk : InKernel c
  · have hss' : (returned im callee int e (raise im int c)).segs .ss = c.segs .ss := by
      rw [returned, hss, entry_segs, raise_ss hk]
      rfl
    have htop : (raise im int c).regs .esp + 12 = c.regs .esp := by
      rw [raise_esp, savedWords_length, if_pos hk, stackTop, if_pos hk]
      bv_omega
    rw [Cpu.iret, hcs, if_pos (mode.mpr hk)]
    refine Cpu.ext (funext fun r => ?_) (funext fun x => ?_) (stack 0) (stack 2) mem
    · by_cases hr : r = .esp
      · subst hr
        simp only [IsrRegisters.resume, if_pos hk, Cpu.setSeg_regs, Cpu.setReg_regs, if_true, esp]
        exact htop
      · simp only [Cpu.setSeg_regs, Cpu.setReg_regs, if_neg hr]
        exact regs r hr
    · cases x <;> simp [IsrRegisters.resume, hk, segs, hss']
  · rw [Cpu.iret, hcs, if_neg (fun h => hk (mode.mp h))]
    refine Cpu.ext (funext fun r => ?_) (funext fun x => ?_) (stack 0) (stack 2) mem
    · by_cases hr : r = .esp
      · subst hr
        simp only [IsrRegisters.resume, if_neg hk, if_true]
        exact stack 3
      · simp only [if_neg hr]
        exact regs r hr
    · have hword := congrArg (BitVec.setWidth 16) (stack 4)
      cases x with
      | cs => rfl
      | ss =>
          simp only [IsrRegisters.resume, if_neg hk]
          exact hword
      | ds | es | fs | gs => simp [IsrRegisters.resume, hk, segs]

/-- An interrupt makes one call, of the function that the table holds for it, whose argument
is what was interrupted. What this function has left of its argument is resumed. -/
theorem interrupt_exact (im : Image) (cdecl : ∀ f, Cdecl 16 kernelStackPos (callee f))
    (hss : ∀ f k, (callee f k).segs .ss = k.segs .ss) (hint : int < 48)
    (he : e.isSome = decide (int ∈ withErrorCode)) (room : Room c) :
    ∃ start, (handle im callee int e (raise im int c)).calls =
        [(load32 c.mem (im.slot int), start)] ∧
      IsrRegisters.ofStack start 1 = .interrupted int e c ∧
      (∀ a : Word, a.toNat + 68 < (stackTop c).toNat ∨ (stackTop c).toNat ≤ a.toNat →
        start.mem a = c.mem a) ∧
      let k := callee (load32 c.mem (im.slot int)) start
      let r := IsrRegisters.ofStack k 0
      ((r.cs.setWidth 16 &&& 3 = 0 ↔ InKernel c) → serve im callee int e c = r.resume c k.mem) := by
  have htarget := room.target im e (show int < 256 by omega)
  refine ⟨entry im int e (raise im int c), ?_, ?_, fun a => room.entry_mem, ?_⟩
  · rw [handle_eq he, (restoreRegisters_spec callee _).1, htarget]
  · rw [ofStack_entry, saved_raise]
  · intro k r mode
    have hk : k = returned im callee int e (raise im int c) := by rw [returned, htarget]
    have hr : r = left im callee int e (raise im int c) := by rw [left, ← hk]
    rw [hr] at mode
    rw [hk, hr]
    exact serve_eq im c he (fun f => (cdecl f).esp) hss mode

/-- A kernel whose table starts at `0x110000`. -/
def sampleImage : Image :=
  ⟨0x110000, fun n => 0x100000 + BitVec.ofNat 32 (64 * n),
    fun n => 0x100030 + BitVec.ofNat 32 (64 * n), by decide⟩

/-- A timer interrupt in user mode. -/
theorem interrupt_exact_timer :
    ∃ start, (handle sampleImage (fun _ => returning 7) 32 none
        (raise sampleImage 32 (userCaller fun _ => 5).cpu)).calls =
        [(load32 (fun _ => 0) 0x110080, start)] ∧
      IsrRegisters.ofStack start 1 = .interrupted 32 none (userCaller fun _ => 5).cpu := by
  have cdecl : ∀ f, Cdecl 16 kernelStackPos ((fun _ => returning 7 : Word → Cpu → Cpu) f) := by
    intro f
    constructor <;> intros <;> rfl
  obtain ⟨start, calls, argument, -⟩ := interrupt_exact (e := none)
    (c := (userCaller fun _ => 5).cpu) sampleImage cdecl (fun _ _ => rfl)
    (show 32 < 48 by decide) (by decide) (fun hk => absurd hk (userCaller fun _ => 5).user)
  exact ⟨start, calls, argument⟩

end Jkos.Interrupt
