import Jkos.Syscall.Dispatch

/-!
# The register contract of a system call

The wrappers `DEFN_SYSCALL0`, `DEFN_SYSCALL1` and `DEFN_SYSCALL2` of the user library
declare `eax` as the only output of `int $0x80` and no clobbered register. This module
says what a caller finds in its registers after a call of a function that obeys the cdecl
convention.
-/

namespace Jkos.Syscall

open I386

/-- What the wrappers assume about `int $0x80`. -/
structure Contract (im : Image) (callee : Word → Cpu → Cpu) (c : Caller) : Prop where
  /-- The function of the table is called once, with five registers as its arguments, and
  its result is returned. -/
  called : ∃ k, (handle im callee c).calls = [k] ∧
    k.target = load32 c.cpu.mem (im.table + c.cpu.regs .eax * 4) ∧
    k.entry.stack 1 = c.cpu.regs .ebx ∧ k.entry.stack 2 = c.cpu.regs .ecx ∧
    k.entry.stack 3 = c.cpu.regs .edx ∧ k.entry.stack 4 = c.cpu.regs .esi ∧
    k.entry.stack 5 = c.cpu.regs .edi ∧
    (int0x80 im callee c).regs .eax = (callee k.target k.entry).regs .eax
  regs : ∀ r, r ≠ .eax → (int0x80 im callee c).regs r = c.cpu.regs r
  segs : ∀ x ∈ [Seg.ds, .es, .fs, .gs], (int0x80 im callee c).segs x = c.cpu.segs x
  returns : (handle im callee c).Returns (isr0x80 im)
  balanced : (handle im callee c).cpu.regs .esp = (enter im c).cpu.regs .esp

variable {im : Image} {callee : Word → Cpu → Cpu} {c : Caller}

theorem callEntry_esp : (callEntry im c).regs .esp = 0xFFFFEFCC := by
  obtain ⟨esp, -⟩ := prepared_spec im (fun _ => id) c
  change (prepared im (fun _ => id) c).cpu.regs .esp - 4 = _
  rw [esp]
  decide

theorem callEntry_regs {r : Reg} (h : r ≠ .esp) : (callEntry im c).regs r = c.cpu.regs r := by
  obtain ⟨-, regs, -⟩ := prepared_spec im (fun _ => id) c
  simpa [callEntry, h] using regs r h

theorem callEntry_mem :
    (callEntry im c).mem =
      store32 (prepared im (fun _ => id) c).cpu.mem 0xFFFFEFCC (im.place 18) := by
  obtain ⟨esp, -⟩ := prepared_spec im (fun _ => id) c
  change store32 _ ((prepared im (fun _ => id) c).cpu.regs .esp - 4) _ = _
  rw [esp, show (0xFFFFEFD0 - 4 : Word) = 0xFFFFEFCC by decide]

/-- The arguments lie above the return address. -/
theorem callEntry_stack (im : Image) (c : Caller) :
    (callEntry im c).stack 1 = c.cpu.regs .ebx ∧ (callEntry im c).stack 2 = c.cpu.regs .ecx ∧
    (callEntry im c).stack 3 = c.cpu.regs .edx ∧ (callEntry im c).stack 4 = c.cpu.regs .esi ∧
    (callEntry im c).stack 5 = c.cpu.regs .edi := by
  obtain ⟨-, -, mem, -⟩ := prepared_spec im (fun _ => id) c
  simp only [Cpu.stack, callEntry_esp, callEntry_mem, mem]
  simp (disch := decide) [load32_store32, load32_store32_of_ne]

/-- The saved data segment lies above the arguments. -/
theorem callEntry_ds (im : Image) :
    load32 (callEntry im c).mem 0xFFFFEFE4 = (c.cpu.segs .ds).setWidth 32 := by
  obtain ⟨-, -, mem, -⟩ := prepared_spec im (fun _ => id) c
  simp only [callEntry_mem, mem]
  simp (disch := decide) [load32_store32, load32_store32_of_ne]

/-- The caller's part of the stack lies above everything the handler pushed. -/
theorem callEntry_frame {a : Word} (h : 0xFFFFEFEC ≤ a) :
    (callEntry im c).mem a = (enter im c).cpu.mem a := by
  have outside : ∀ b : Word, b ≤ 0xFFFFEFE8 → ∀ (m : Word → Byte) (v : Word),
      store32 m b v a = m a := by
    intro b hb m v
    have lower : 0xFFFFEFEC ≤ a.toNat := h
    have upper : b.toNat ≤ 0xFFFFEFE8 := hb
    apply store32_of_ne
    intro i heq
    have := congrArg BitVec.toNat heq
    simp only [BitVec.toNat_add, BitVec.toNat_ofNat] at this
    omega
  obtain ⟨-, -, mem, -⟩ := prepared_spec im (fun _ => id) c
  rw [callEntry_mem, mem]
  simp (disch := decide) only [outside]

/-! ## What a call leaves behind -/

/-- The state in which the function returns to the handler. -/
def returned (im : Image) (callee : Word → Cpu → Cpu) (c : Caller) : Cpu :=
  callee (callEntry im c).eip (callEntry im c)

section Called

variable (im : Image) (cdecl : ∀ f, Cdecl 5 kernelStackPos (callee f))
  (num : (c.cpu.regs .eax).toInt < 5)
include cdecl

theorem returned_esp : (returned im callee c).regs .esp = 0xFFFFEFD0 := by
  rw [returned, (cdecl _).esp, callEntry_esp]
  rfl

/-- The function leaves the stack above its arguments as it was. -/
theorem returned_mem {a : Word} (h : 0xFFFFEFE4 ≤ a) (h' : a < kernelStackPos) :
    (returned im callee c).mem a = (callEntry im c).mem a := by
  apply (cdecl _).stack
  · rw [callEntry_esp]
    exact h
  · exact h'

theorem returned_ds :
    load32 (returned im callee c).mem 0xFFFFEFE4 = (c.cpu.segs .ds).setWidth 32 := by
  rw [← callEntry_ds im]
  apply load32_congr
  intro i
  have bounds : ∀ i : Fin 4, 0xFFFFEFE4 ≤ 0xFFFFEFE4 + BitVec.ofNat 32 i ∧
      0xFFFFEFE4 + BitVec.ofNat 32 i < kernelStackPos := by decide
  exact returned_mem im cdecl (bounds i).1 (bounds i).2

include num

/-- The handler at its `iret`. -/
theorem handle_called :
    Balanced c (handle im callee c).cpu ∧
    (handle im callee c).cpu.regs .ebx = (c.cpu.segs .ds).setWidth 32 ∧
    (∀ r, r ≠ .ebx → r ≠ .esp →
      (handle im callee c).cpu.regs r = (returned im callee c).regs r) ∧
    ∀ x ∈ [Seg.ds, .es, .fs, .gs], (handle im callee c).cpu.segs x = c.cpu.segs .ds := by
  have cpu : ((prepared im callee c).exec im.place callee (.call im.table .eax)).cpu =
      returned im callee c := by
    obtain ⟨-, regs, -⟩ := prepared_spec im (fun _ => id) c
    have eax := regs .eax (by decide)
    rw [prepared_congr]
    simp only [Run.exec, Run.advance, eax, prepared_pc]
    rfl
  obtain ⟨esp, ebx, regs, segs, mem, -⟩ := restoreSegments_spec im callee
    ((prepared im callee c).exec im.place callee (.call im.table .eax))
    (by rw [cpu]; exact returned_esp im cdecl)
  rw [← (handle_of_lt num).1] at esp ebx regs segs mem
  rw [cpu] at ebx regs segs mem
  rw [returned_ds im cdecl] at ebx segs
  refine ⟨?_, ebx, regs, ?_⟩
  · apply (enter_balanced im c).congr esp
    intro a ha ha'
    rw [mem, returned_mem im cdecl (BitVec.le_trans (by decide) ha) ha', callEntry_frame ha]
  · intro x hx
    rw [segs x hx]
    simp

/-- The registers of the caller after the call. -/
theorem int0x80_regs (r : Reg) :
    (int0x80 im callee c).regs r =
      if r = .esp then c.cpu.regs .esp
      else if r = .ebx then (c.cpu.segs .ds).setWidth 32
      else (returned im callee c).regs r := by
  obtain ⟨balanced, ebx, regs, -⟩ := handle_called im cdecl num
  rw [int0x80, balanced.iret_regs]
  split
  · rfl
  · next hesp =>
      split
      · next hebx => rw [hebx, ebx]
      · next hebx => exact regs r hebx hesp

/-- Every data segment register holds the data segment of the caller. -/
theorem int0x80_segs {x : Seg} (hx : x ∈ [Seg.ds, .es, .fs, .gs]) :
    (int0x80 im callee c).segs x = c.cpu.segs .ds := by
  obtain ⟨balanced, -, -, segs⟩ := handle_called im cdecl num
  have hdata : (handle im callee c).cpu.segs x >>> 3 ≠ kernelDataSelector >>> 3 := by
    rw [segs x hx]
    exact c.data .ds (by simp)
  rw [int0x80, balanced.iret_segs (fun _ => hdata), segs x hx]
  cases x <;> simp_all

end Called

/-- The handler restores neither `ebx`, which ends up with the data segment of the caller,
nor `ecx` and `edx`, nor the other data segments. So the wrappers are right exactly when
those registers held these values already and the function did not touch `ecx` and `edx`. -/
theorem contract_iff (im : Image) (cdecl : ∀ f, Cdecl 5 kernelStackPos (callee f))
    (num : (c.cpu.regs .eax).toNat < nrSyscalls) :
    Contract im callee c ↔
      c.cpu.regs .ebx = (c.cpu.segs .ds).setWidth 32 ∧
      (returned im callee c).regs .ecx = c.cpu.regs .ecx ∧
      (returned im callee c).regs .edx = c.cpu.regs .edx ∧
      c.cpu.segs .es = c.cpu.segs .ds ∧ c.cpu.segs .fs = c.cpu.segs .ds ∧
      c.cpu.segs .gs = c.cpu.segs .ds := by
  have hlt : (c.cpu.regs .eax).toInt < 5 := (toInt_lt_five_iff _).mpr (.inl num)
  have regs := int0x80_regs im cdecl hlt
  constructor
  · intro h
    have ebx := h.regs .ebx (by decide)
    have ecx := h.regs .ecx (by decide)
    have edx := h.regs .edx (by decide)
    rw [regs] at ebx ecx edx
    have segs : ∀ x ∈ [Seg.ds, .es, .fs, .gs], c.cpu.segs x = c.cpu.segs .ds := by
      intro x hx
      rw [← h.segs x hx]
      exact int0x80_segs im cdecl hlt hx
    exact ⟨ebx.symm, ecx, edx, segs .es (by simp), segs .fs (by simp), segs .gs (by simp)⟩
  · rintro ⟨ebx, ecx, edx, es, fs, gs⟩
    obtain ⟨balanced, -⟩ := handle_called im cdecl hlt
    constructor
    · refine ⟨_, calls_of_lt hlt, callEntry_eip num, ?_⟩
      obtain ⟨h1, h2, h3, h4, h5⟩ := callEntry_stack im c
      exact ⟨h1, h2, h3, h4, h5, regs .eax⟩
    · intro r hr
      rw [regs]
      cases r with
      | eax => exact absurd rfl hr
      | ebx => exact ebx.symm
      | ecx => exact ecx
      | edx => exact edx
      | esi => exact ((cdecl _).esi _).trans (callEntry_regs (by decide))
      | edi => exact ((cdecl _).edi _).trans (callEntry_regs (by decide))
      | ebp => exact ((cdecl _).ebp _).trans (callEntry_regs (by decide))
      | esp => rfl
    · intro x hx
      rw [int0x80_segs im cdecl hlt hx]
      cases x <;> simp_all
    · rw [Run.Returns, (handle_of_lt hlt).2]
      rfl
    · rw [balanced.esp, enter_esp]

theorem returning_cdecl (v : Word) : Cdecl 5 kernelStackPos (returning v) := by
  constructor <;> intros <;> rfl

theorem returned_returning (im : Image) (c : Caller) (v : Word) {r : Reg} (h : r ≠ .eax)
    (h' : r ≠ .esp) : (returned im (fun _ => returning v) c).regs r = c.cpu.regs r := by
  simp only [returned, returning, Cpu.setReg_regs, if_neg h, if_neg h', callEntry_regs h']

/-- The contract holds of `sys_getpid()` in a caller whose `ebx` holds its data segment. -/
theorem contract_getpid :
    Contract sampleImage (fun _ => returning 7)
      (userCaller fun r => if r = .eax then 2 else 0x23) := by
  refine (contract_iff sampleImage (fun _ => returning_cdecl 7) (by decide)).mpr
    ⟨by decide, ?_, ?_, rfl, rfl, rfl⟩
  · exact returned_returning _ _ _ (by decide) (by decide)
  · exact returned_returning _ _ _ (by decide) (by decide)

/-- `sys_wakeup(1)` returns with `0x23` in `ebx`, where the wrapper put `1`. -/
theorem wakeup_breaks_contract :
    (∀ f, Cdecl 5 kernelStackPos ((fun _ => returning 0 : Word → Cpu → Cpu) f)) ∧
    ¬ Contract sampleImage (fun _ => returning 0)
      (userCaller fun r => if r = .eax then 4 else if r = .ebx then 1 else 0) := by
  have cdecl : ∀ f, Cdecl 5 kernelStackPos ((fun _ => returning 0 : Word → Cpu → Cpu) f) :=
    fun _ => returning_cdecl 0
  refine ⟨cdecl, ?_⟩
  intro h
  have ebx := h.regs .ebx (by decide)
  rw [int0x80_regs sampleImage cdecl (by decide)] at ebx
  exact absurd ebx (by decide)

end Jkos.Syscall
