import Jkos.Interrupt.Resume
import Jkos.Lib.Interleave

/-!
# Interrupts are not noticed

A function that leaves its argument alone lets its handler restore everything. So a program
that uses neither the free part of the stack nor the memory of these functions runs as if
there were no interrupts, whenever they arrive and however many there are.
-/

namespace Jkos.Interrupt

open I386 Syscall

/-- A function that leaves its argument alone and writes nothing but `shared` memory and the
free part of the stack. -/
structure Callback (shared : Set Word) (f : Cpu → Cpu) : Prop extends
    Cdecl 0 kernelStackPos f where
  ss : ∀ k, (f k).segs .ss = k.segs .ss
  writes : ∀ k a, a ∉ shared → a < kernelHeapEnd ∨ kernelStackPos ≤ a → (f k).mem a = k.mem a

/-- The free part of the kernel stack. In user mode this is all of it. -/
def Scratch (c : Cpu) (a : Word) : Prop := kernelHeapEnd ≤ a ∧ a < stackTop c

/-- Two processors that differ in `shared` memory and in the free part of the stack only. -/
structure Agree (shared : Set Word) (c c' : Cpu) : Prop where
  regs : c.regs = c'.regs
  segs : c.segs = c'.segs
  eip : c.eip = c'.eip
  eflags : c.eflags = c'.eflags
  mem : ∀ a, a ∉ shared → ¬ Scratch c' a → c.mem a = c'.mem a

/-- The handlers restore one data segment only. -/
structure Interruptible (c : Cpu) : Prop where
  room : Room c
  flat : ∀ x ∈ [Seg.es, .fs, .gs], c.segs x = c.segs .ds
  data : ¬ InKernel c → c.segs .ds >>> 3 ≠ kernelDataSelector >>> 3

variable {shared : Set Word} {im : Image} {callee : Word → Cpu → Cpu} {a b c : Cpu} {int : Nat}
  {e : Option Word}

namespace Agree

theorem inKernel_iff (h : Agree shared a b) : InKernel a ↔ InKernel b := by
  rw [InKernel, InKernel, h.segs]

theorem stackTop_eq (h : Agree shared a b) : stackTop a = stackTop b := by
  simp only [stackTop, h.inKernel_iff, h.regs]

theorem trans (h : Agree shared a b) (h' : Agree shared b c) : Agree shared a c := by
  refine ⟨h.regs.trans h'.regs, h.segs.trans h'.segs, h.eip.trans h'.eip,
    h.eflags.trans h'.eflags, fun x hx hs => ?_⟩
  have hs' : ¬ Scratch b x := by
    rw [Scratch, h'.stackTop_eq]
    exact hs
  exact (h.mem x hx hs').trans (h'.mem x hx hs)

theorem interruptible (h : Agree shared a b) (hb : Interruptible b) : Interruptible a := by
  constructor
  · intro hk
    rw [h.regs]
    exact hb.room (h.inKernel_iff.mp hk)
  · rw [h.segs]
    exact hb.flat
  · rw [h.inKernel_iff, h.segs]
    exact hb.data

end Agree

theorem IsrRegisters.ofStack_congr {i j : Nat}
    (h : ∀ n < 16, a.stack (i + n) = b.stack (j + n)) : ofStack a i = ofStack b j := by
  simp only [ofStack, IsrRegisters.mk.injEq]
  exact ⟨h 0 (by decide), h 1 (by decide), h 2 (by decide), h 3 (by decide), h 4 (by decide),
    h 5 (by decide), h 6 (by decide), h 7 (by decide), h 8 (by decide), h 9 (by decide),
    h 10 (by decide), h 11 (by decide), h 12 (by decide), h 13 (by decide), h 14 (by decide),
    h 15 (by decide)⟩

section Serve

variable (room : Room c)
include room

theorem Room.entry_esp (im : Image) (int : Nat) (e : Option Word) :
    ((entry im int e (raise im int c)).regs .esp).toNat =
      (stackTop c).toNat - 4 * (savedWords c).length - 48 := by
  have hend : kernelHeapEnd.toNat = 0xFFC00000 := by decide
  obtain ⟨low, -⟩ := room.stackTop_bounds
  have hesp := room.raise_esp_toNat im int
  have hlen : (savedWords c).length ≤ 5 := by
    rw [savedWords_length]
    split <;> decide
  rw [Interrupt.entry_esp]
  bv_omega

/-- A function that leaves its argument alone. -/
theorem Room.left_eq (im : Image) (int : Nat) (e : Option Word)
    (callback : ∀ f, Callback shared (callee f)) :
    left im callee int e (raise im int c) = .interrupted int e c := by
  have hpos : kernelStackPos.toNat = 0xFFFFF000 := by decide
  obtain ⟨low, high⟩ := room.stackTop_bounds
  have hesp := room.entry_esp im int e
  have hstart : IsrRegisters.ofStack (entry im int e (raise im int c)) 1 =
      .interrupted int e c := by
    rw [ofStack_entry, saved_raise]
  rw [← hstart, left]
  apply IsrRegisters.ofStack_congr
  intro n hn
  rw [Nat.zero_add, Nat.add_comm]
  refine (callback _).toCdecl.stack_eq _ ?_
  rw [hesp, savedWords_length]
  have htop : InKernel c → (stackTop c).toNat + 8 ≤ kernelStackPos.toNat := by
    intro hk
    rw [stackTop, if_pos hk]
    exact (room hk).2
  split
  · next hk =>
      have := htop hk
      omega
  · omega

/-- The memory after an interrupt. -/
theorem Room.returned_mem (callback : ∀ f, Callback shared (callee f)) {x : Word}
    (hx : x ∉ shared) (hs : ¬ Scratch c x) :
    (returned im callee int e (raise im int c)).mem x = c.mem x := by
  have hpos : kernelStackPos.toNat = 0xFFFFF000 := by decide
  obtain ⟨low, high⟩ := room.stackTop_bounds
  have hesp := room.entry_esp im int e
  by_cases hin : x < kernelHeapEnd ∨ kernelStackPos ≤ x
  · have hout : x.toNat + 68 < (stackTop c).toNat ∨ (stackTop c).toNat ≤ x.toNat := by
      apply hin.imp
      · intro h
        have hx : x.toNat < kernelHeapEnd.toNat := h
        omega
      · intro h
        have hx : kernelStackPos.toNat ≤ x.toNat := h
        omega
    exact ((callback _).writes _ x hx hin).trans (room.entry_mem hout)
  · obtain ⟨hlow, hhigh⟩ := not_or.mp hin
    have hle : kernelHeapEnd ≤ x := BitVec.not_lt.mp hlow
    have hout : (stackTop c).toNat ≤ x.toNat := Nat.not_lt.mp fun h => hs ⟨hle, h⟩
    refine ((callback _).stack _ x ?_ (BitVec.not_le.mp hhigh)).trans (room.entry_mem (.inr hout))
    have hend : kernelHeapEnd.toNat = 0xFFC00000 := by decide
    rw [savedWords_length] at hesp
    bv_omega

end Serve

/-- An interrupt changes nothing that its callback does not share with the program. -/
theorem serve_agree (callback : ∀ f, Callback shared (callee f))
    (he : e.isSome = decide (int ∈ withErrorCode)) (ok : Interruptible c) :
    Agree shared (serve im callee int e c) c := by
  have hleft := ok.room.left_eq im int e callback
  have hcs : (IsrRegisters.interrupted int e c).cs.setWidth 16 = c.segs .cs := by
    simp [IsrRegisters.interrupted]
  have hserve := serve_eq im c he (fun f => (callback f).esp)
    (fun f => (callback f).ss) (by rw [hleft, hcs]; rfl)
  rw [hleft] at hserve
  rw [hserve]
  refine ⟨funext fun r => ?_, funext fun x => ?_, rfl, rfl, fun x hx hs => ?_⟩
  · cases r with
    | esp => by_cases hk : InKernel c <;> simp [IsrRegisters.resume, IsrRegisters.interrupted, hk]
    | _ => rfl
  · have hds : (if ¬ InKernel c ∧ c.segs .ds >>> 3 = kernelDataSelector >>> 3 then 0
        else c.segs .ds) = c.segs .ds := if_neg fun h => ok.data h.1 h.2
    cases x with
    | cs => exact hcs
    | ss => by_cases hk : InKernel c <;> simp [IsrRegisters.resume, IsrRegisters.interrupted, hk]
    | ds => simpa [IsrRegisters.resume, IsrRegisters.interrupted] using hds
    | es | fs | gs =>
        rw [ok.flat _ (by simp)]
        simpa [IsrRegisters.resume, IsrRegisters.interrupted] using hds
  · exact ok.room.returned_mem callback hx hs

/-! ## Runs -/

/-- A program whose steps depend neither on `shared` memory nor on the free part of the
stack. -/
def Unaware (shared : Set Word) (step : Cpu → Cpu) : Prop :=
  ∀ a b, Agree shared a b → Agree shared (step a) (step b)

/-- An interrupt with the error code that goes with it. -/
def Raised (x : Nat × Option Word) : Prop := x.2.isSome = decide (x.1 ∈ withErrorCode)

/-- A program that is interrupted any number of times, at any moments, does what it does without
interrupts. -/
theorem run_transparent (im : Image) (callback : ∀ f, Callback shared (callee f))
    {step : Cpu → Cpu} (unaware : Unaware shared step) (ok : ∀ n, Interruptible (step^[n] c))
    (acts : List (Interleave.Act (Nat × Option Word)))
    (raised : ∀ x, .disturb x ∈ acts → Raised x) :
    Agree shared (Interleave.run step (fun x => serve im callee x.1 x.2) acts c)
      (step^[Interleave.steps acts] c) := by
  apply Interleave.run_related (r := Agree shared) unaware ?_ acts raised
  · exact ⟨rfl, rfl, rfl, rfl, fun _ _ _ => rfl⟩
  · intro x hx n a ha
    exact (serve_agree callback hx (ha.interruptible (ok n))).trans ha

/-- A program that counts. -/
def counter (k : Cpu) : Cpu := k.setReg .eax (k.regs .eax + 1)

theorem counter_unaware (shared : Set Word) : Unaware shared counter := by
  intro a b h
  refine ⟨?_, h.segs, h.eip, h.eflags, h.mem⟩
  funext r
  simp only [counter, Cpu.setReg_regs, h.regs]

/-- A function of the kernel that is interrupted while it runs on the kernel stack. -/
def kernelCode : Cpu where
  regs := fun r => if r = .esp then 0xFFFFEF00 else 0
  segs := fun x => if x = .cs then kernelCodeSelector else kernelDataSelector
  eip := 0x101000
  eflags := 0x202
  mem := fun _ => 0

theorem iterate_counter_interruptible (n : Nat) : Interruptible (counter^[n] kernelCode) := by
  have keeps : (counter^[n] kernelCode).segs = kernelCode.segs ∧
      (counter^[n] kernelCode).regs .esp = kernelCode.regs .esp := by
    induction n with
    | zero => exact ⟨rfl, rfl⟩
    | succ n ih =>
        rw [Function.iterate_succ_apply']
        exact ⟨ih.1, ih.2⟩
  have hkernel : InKernel (counter^[n] kernelCode) := by
    rw [InKernel, keeps.1]
    decide
  constructor
  · intro _
    rw [keeps.2]
    decide
  · intro x hx
    rw [keeps.1]
    cases x <;> simp_all [kernelCode]
  · intro h
    exact absurd hkernel h

/-- A callback that does nothing. -/
def idle (k : Cpu) : Cpu := k.setReg .esp (k.regs .esp + 4)

theorem idle_callback (shared : Set Word) : Callback shared idle := by
  refine ⟨⟨?_, ?_, ?_, ?_, ?_, ?_⟩, ?_, ?_⟩ <;> intros <;> rfl

/-- Two steps between interrupts of the timer and a page fault. -/
theorem run_transparent_counter :
    (Interleave.run counter (fun x => serve sampleImage (fun _ => idle) x.1 x.2)
      [.disturb (32, none), .step, .disturb (14, some 2), .step, .disturb (32, none)]
      kernelCode).regs .eax = 2 := by
  have h := run_transparent sampleImage (fun _ => idle_callback ∅)
    (counter_unaware ∅) iterate_counter_interruptible
    [.disturb (32, none), .step, .disturb (14, some 2), .step, .disturb (32, none)]
    (by simp [Raised, withErrorCode])
  rw [h.regs]
  decide

end Jkos.Interrupt
