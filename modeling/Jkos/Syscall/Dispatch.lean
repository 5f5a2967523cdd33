import Jkos.Common
import Jkos.Lib.I386

/-!
# The system call gate

The handler `isr0x80` of `syscall.S`, instruction by instruction, entered by `int $0x80`
from user mode on the kernel stack that the TSS names. The functions of the table
`syscall_func_addr` are a parameter.
-/

namespace Jkos.Syscall

open I386

/-- `NR_SYSCALLS`. -/
def nrSyscalls : Nat := 5

/-- `KERNEL_CODE_SELECTOR`. -/
def kernelCodeSelector : BitVec 16 := 0x08

/-- `KERNEL_DATA_SELECTOR`. -/
def kernelDataSelector : BitVec 16 := 0x10

/-- Where the linker placed the handler and the table. The kernel image is loaded at 1 MB
and ends below the heap. -/
structure Image where
  /-- The address of `syscall_func_addr`. -/
  table : Word
  /-- The address of each instruction of `isr0x80`. -/
  place : Nat → Word
  low : table.toNat + 4 * nrSyscalls ≤ kernelHeapBegin.toNat

/-- Save the number and the data segment, and load the data segment of the kernel. -/
def saveSegments : List Instr :=
  [.push .eax,
    .xor .eax .eax,
    .movFromSeg .ds .eax,
    .push .eax,
    .mov16 kernelDataSelector .eax,
    .movToSeg .eax .ds,
    .movToSeg .eax .es,
    .movToSeg .eax .fs,
    .movToSeg .eax .gs]

/-- Push the system call arguments and restore the original `eax`. -/
def pushArguments : List Instr :=
  [.push .edi,
    .push .esi,
    .push .edx,
    .push .ecx,
    .push .ebx,
    .load (4 * 6) .esp .eax]

/-- Restore the data segment and drop what was pushed. -/
def restoreSegments : List Instr :=
  [.load (4 * 5) .esp .ebx,
    .movToSeg .ebx .ds,
    .movToSeg .ebx .es,
    .movToSeg .ebx .fs,
    .movToSeg .ebx .gs,
    .add (4 * 7) .esp]

/-- The handler; the label `done` is its last instruction. -/
def isr0x80 (im : Image) : List Instr :=
  [.cmp (BitVec.ofNat 32 nrSyscalls) .eax, .jge 24] ++ saveSegments ++ pushArguments ++
    [.call im.table .eax] ++ restoreSegments ++ [.iret]

/-- A processor in user mode, which can hold no selector of the kernel's data segment. -/
structure Caller where
  cpu : Cpu
  user : cpu.segs .cs &&& 3 ≠ 0
  data : ∀ x ∈ [Seg.ds, .es, .fs, .gs], cpu.segs x >>> 3 ≠ kernelDataSelector >>> 3

/-- The state at the first instruction of the handler. -/
def enter (im : Image) (c : Caller) : Run :=
  ⟨c.cpu.interrupt kernelStackPos kernelDataSelector kernelCodeSelector (im.place 0), 0, [], []⟩

/-- The handler run to its `iret`, which is its instruction 24. -/
def handle (im : Image) (callee : Word → Cpu → Cpu) (c : Caller) : Run :=
  (Run.next (isr0x80 im) im.place callee)^[24] (enter im c)

/-- `int $0x80` as its caller sees it. -/
def int0x80 (im : Image) (callee : Word → Cpu → Cpu) (c : Caller) : Cpu :=
  (handle im callee c).cpu.iret kernelDataSelector

variable {im : Image} {callee : Word → Cpu → Cpu} {c : Caller}

/-! ## Entry and exit -/

theorem enter_esp (im : Image) (c : Caller) : (enter im c).cpu.regs .esp = 0xFFFFEFEC := by
  simp [enter, Cpu.interrupt, kernelStackPos]

theorem enter_regs (im : Image) (c : Caller) {r : Reg} (h : r ≠ .esp) :
    (enter im c).cpu.regs r = c.cpu.regs r := by
  simp [enter, Cpu.interrupt, h]

theorem enter_segs (im : Image) (c : Caller) {x : Seg} (h : x ≠ .ss) (h' : x ≠ .cs) :
    (enter im c).cpu.segs x = c.cpu.segs x := by
  simp [enter, Cpu.interrupt, h, h']

/-- The memory in which the handler starts: the state of the caller is saved on the kernel
stack. -/
theorem enter_mem :
    (enter im c).cpu.mem = store32 (store32 (store32 (store32 (store32 c.cpu.mem
      0xFFFFEFFC ((c.cpu.segs .ss).setWidth 32)) 0xFFFFEFF8 (c.cpu.regs .esp))
      0xFFFFEFF4 c.cpu.eflags) 0xFFFFEFF0 ((c.cpu.segs .cs).setWidth 32)) 0xFFFFEFEC c.cpu.eip := by
  simp [enter, Cpu.interrupt, kernelStackPos]

/-- The words of the stack that `iret` takes back. -/
theorem enter_stack :
    (enter im c).cpu.stack 0 = c.cpu.eip ∧
    (enter im c).cpu.stack 1 = (c.cpu.segs .cs).setWidth 32 ∧
    (enter im c).cpu.stack 2 = c.cpu.eflags ∧
    (enter im c).cpu.stack 3 = c.cpu.regs .esp ∧
    (enter im c).cpu.stack 4 = (c.cpu.segs .ss).setWidth 32 := by
  simp only [Cpu.stack, enter_esp im c, enter_mem]
  simp (disch := decide) [load32_store32, load32_store32_of_ne]

/-- The handler stands at its `iret` with the stack it was entered with. -/
structure Balanced (c : Caller) (k : Cpu) : Prop where
  esp : k.regs .esp = 0xFFFFEFEC
  eip : k.stack 0 = c.cpu.eip
  cs : k.stack 1 = (c.cpu.segs .cs).setWidth 32
  eflags : k.stack 2 = c.cpu.eflags
  userEsp : k.stack 3 = c.cpu.regs .esp
  ss : k.stack 4 = (c.cpu.segs .ss).setWidth 32

theorem enter_balanced (im : Image) (c : Caller) : Balanced c (enter im c).cpu := by
  obtain ⟨eip, cs, eflags, esp, ss⟩ := enter_stack
  exact ⟨enter_esp im c, eip, cs, eflags, esp, ss⟩

/-- The caller goes on in the state it was in, with other contents of memory. -/
structure Resumed (c : Caller) (k : Cpu) : Prop where
  regs : ∀ r, k.regs r = c.cpu.regs r
  segs : ∀ x, k.segs x = c.cpu.segs x
  eip : k.eip = c.cpu.eip
  eflags : k.eflags = c.cpu.eflags

namespace Balanced

variable {k : Cpu}

/-- Only the saved state of the caller matters. -/
theorem congr {k' : Cpu} (h : Balanced c k) (hesp : k'.regs .esp = 0xFFFFEFEC)
    (hmem : ∀ a, 0xFFFFEFEC ≤ a → a < kernelStackPos → k'.mem a = k.mem a) : Balanced c k' := by
  have word : ∀ i : Fin 5, k'.stack i = k.stack i := by
    intro i
    rw [Cpu.stack, Cpu.stack, hesp, h.esp]
    apply load32_congr
    intro j
    have bounds : ∀ (i : Fin 5) (j : Fin 4),
        0xFFFFEFEC ≤ 0xFFFFEFEC + BitVec.ofNat 32 (4 * i) + BitVec.ofNat 32 j ∧
        0xFFFFEFEC + BitVec.ofNat 32 (4 * i) + BitVec.ofNat 32 j < kernelStackPos := by
      decide
    exact hmem _ (bounds i j).1 (bounds i j).2
  exact ⟨hesp, (word 0).trans h.eip, (word 1).trans h.cs, (word 2).trans h.eflags,
    (word 3).trans h.userEsp, (word 4).trans h.ss⟩

theorem cs_eq (h : Balanced c k) : (k.stack 1).setWidth 16 = c.cpu.segs .cs := by
  rw [h.cs]
  simp

theorem iret_eip (h : Balanced c k) : (k.iret kernelDataSelector).eip = c.cpu.eip := by
  simp only [Cpu.iret, h.cs_eq, if_neg c.user]
  exact h.eip

theorem iret_eflags (h : Balanced c k) : (k.iret kernelDataSelector).eflags = c.cpu.eflags := by
  simp only [Cpu.iret, h.cs_eq, if_neg c.user]
  exact h.eflags

theorem iret_regs (h : Balanced c k) (r : Reg) :
    (k.iret kernelDataSelector).regs r = if r = .esp then c.cpu.regs .esp else k.regs r := by
  simp only [Cpu.iret, h.cs_eq, if_neg c.user, h.userEsp]

/-- The code and stack segments come from the stack, the others stay unless they give
access to the kernel. -/
theorem iret_segs (h : Balanced c k) {x : Seg}
    (data : x ∈ [Seg.ds, .es, .fs, .gs] → k.segs x >>> 3 ≠ kernelDataSelector >>> 3) :
    (k.iret kernelDataSelector).segs x =
      if x ∈ [Seg.cs, .ss] then c.cpu.segs x else k.segs x := by
  have hss : (k.stack 4).setWidth 16 = c.cpu.segs .ss := by
    rw [h.ss]
    simp
  simp only [Cpu.iret, h.cs_eq, if_neg c.user]
  cases x with
  | cs => rfl
  | ss => exact hss
  | ds | es | fs | gs => exact if_neg (data (by simp))

end Balanced

/-! ## The parts of the handler -/

section Parts

variable (im : Image) (callee : Word → Cpu → Cpu) (x : Run)

/-- The number and the data segment are saved on the stack. -/
theorem saveSegments_spec (esp : x.cpu.regs .esp = 0xFFFFEFEC) :
    let y := saveSegments.foldl (Run.exec im.place callee) x
    y.cpu.regs .esp = 0xFFFFEFE4 ∧
    (∀ r, r ≠ .eax → r ≠ .esp → y.cpu.regs r = x.cpu.regs r) ∧
    y.cpu.mem = store32 (store32 x.cpu.mem 0xFFFFEFE8 (x.cpu.regs .eax))
      0xFFFFEFE4 ((x.cpu.segs .ds).setWidth 32) ∧
    y.reads = x.reads ∧ y.calls = x.calls := by
  refine ⟨?_, ?_, ?_, rfl, rfl⟩
  · simp [saveSegments, Run.exec, Run.advance, esp]
  · intro r hr hr'
    simp [saveSegments, Run.exec, Run.advance, hr, hr']
  · simp [saveSegments, Run.exec, Run.advance, Run.withLow, esp]

/-- The arguments lie above each other on the stack, and `eax` holds the number again. -/
theorem pushArguments_spec (esp : x.cpu.regs .esp = 0xFFFFEFE4) :
    let y := pushArguments.foldl (Run.exec im.place callee) x
    y.cpu.regs .esp = 0xFFFFEFD0 ∧
    (∀ r, r ≠ .eax → r ≠ .esp → y.cpu.regs r = x.cpu.regs r) ∧
    y.cpu.regs .eax = load32 x.cpu.mem 0xFFFFEFE8 ∧
    y.cpu.mem = store32 (store32 (store32 (store32 (store32 x.cpu.mem
      0xFFFFEFE0 (x.cpu.regs .edi)) 0xFFFFEFDC (x.cpu.regs .esi)) 0xFFFFEFD8 (x.cpu.regs .edx))
      0xFFFFEFD4 (x.cpu.regs .ecx)) 0xFFFFEFD0 (x.cpu.regs .ebx) ∧
    y.reads = x.reads ++ [0xFFFFEFE8] ∧ y.calls = x.calls := by
  refine ⟨?_, ?_, ?_, ?_, ?_, rfl⟩
  · simp [pushArguments, Run.exec, Run.advance, esp]
  · intro r hr hr'
    simp [pushArguments, Run.exec, Run.advance, hr, hr']
  · simp [pushArguments, Run.exec, Run.advance, esp]
    simp (disch := decide) [load32_store32_of_ne]
  · simp [pushArguments, Run.exec, Run.advance, esp]
  · simp [pushArguments, Run.exec, Run.advance, esp]

/-- The saved data segment ends up in `ebx` and in all data segment registers. -/
theorem restoreSegments_spec (esp : x.cpu.regs .esp = 0xFFFFEFD0) :
    let y := restoreSegments.foldl (Run.exec im.place callee) x
    let ds := load32 x.cpu.mem 0xFFFFEFE4
    y.cpu.regs .esp = 0xFFFFEFEC ∧ y.cpu.regs .ebx = ds ∧
    (∀ r, r ≠ .ebx → r ≠ .esp → y.cpu.regs r = x.cpu.regs r) ∧
    (∀ s ∈ [Seg.ds, .es, .fs, .gs], y.cpu.segs s = ds.setWidth 16) ∧
    y.cpu.mem = x.cpu.mem ∧ y.reads = x.reads ++ [0xFFFFEFE4] ∧ y.calls = x.calls := by
  refine ⟨?_, ?_, ?_, ?_, rfl, ?_, rfl⟩
  · simp [restoreSegments, Run.exec, Run.advance, esp]
  · simp [restoreSegments, Run.exec, Run.advance, esp]
  · intro r hr hr'
    simp [restoreSegments, Run.exec, Run.advance, hr, hr']
  · simp [restoreSegments, Run.exec, Run.advance, esp]
  · simp [restoreSegments, Run.exec, Run.advance, esp]

end Parts

/-! ## Dispatch -/

/-- The processor after the comparison of the number. -/
def compared (im : Image) (c : Caller) : Cpu :=
  (enter im c).cpu.setStatus (c.cpu.regs .eax - 5) ((c.cpu.regs .eax).ssubOverflow 5)

/-- The comparison is a signed one. -/
theorem iterate_next_two :
    (Run.next (isr0x80 im) im.place callee)^[2] (enter im c) =
      ⟨compared im c, if 5 ≤ (c.cpu.regs .eax).toInt then 24 else 2, [], []⟩ := by
  have eax : (enter im c).cpu.regs .eax = c.cpu.regs .eax := enter_regs im c (by decide)
  have first : Run.next (isr0x80 im) im.place callee (enter im c) =
      ⟨compared im c, 1, [], []⟩ := by
    rw [Run.next_of_fetch (i := .cmp (BitVec.ofNat 32 nrSyscalls) .eax) rfl]
    simp only [Run.exec, eax]
    rfl
  rw [Function.iterate_succ_apply, first, Function.iterate_one,
    Run.next_of_fetch (i := .jge 24) rfl]
  obtain ⟨sf, of⟩ := (enter im c).cpu.getLsbD_setStatus (c.cpu.regs .eax - 5)
    ((c.cpu.regs .eax).ssubOverflow 5)
  have five : (5 : Word).toInt = 5 := by decide
  simp only [Run.exec, compared, sf, of, msb_sub_eq_overflow, five]
  split <;> rfl

/-- A number that is not less than `NR_SYSCALLS` as a signed number is sent back. -/
theorem handle_of_le (h : 5 ≤ (c.cpu.regs .eax).toInt) :
    handle im callee c = ⟨compared im c, 24, [], []⟩ := by
  rw [handle, show 24 = 22 + 2 from rfl, Function.iterate_add_apply, iterate_next_two, if_pos h]
  have returns : Run.Returns (isr0x80 im) ⟨compared im c, 24, [], []⟩ := rfl
  exact Run.iterate_next_of_returns returns 22

/-- The state in which the handler makes its call. -/
def prepared (im : Image) (callee : Word → Cpu → Cpu) (c : Caller) : Run :=
  (saveSegments ++ pushArguments).foldl (Run.exec im.place callee) ⟨compared im c, 2, [], []⟩

/-- Every other number is dispatched. -/
theorem handle_of_lt (h : (c.cpu.regs .eax).toInt < 5) :
    handle im callee c = restoreSegments.foldl (Run.exec im.place callee)
      ((prepared im callee c).exec im.place callee (.call im.table .eax)) ∧
    (handle im callee c).pc = 24 := by
  have straight := Run.iterate_next_straight im.place callee
    [.cmp (BitVec.ofNat 32 nrSyscalls) .eax, .jge 24]
    (saveSegments ++ pushArguments ++ [.call im.table .eax] ++ restoreSegments) [.iret]
    (by simp [saveSegments, pushArguments, restoreSegments, Instr.Straight])
    (⟨compared im c, 2, [], []⟩ : Run) rfl
    (by simp only [isr0x80, List.append_assoc] : isr0x80 im = _)
  rw [List.foldl_append, List.foldl_append] at straight
  have start : handle im callee c =
      (Run.next (isr0x80 im) im.place callee)^[22] ⟨compared im c, 2, [], []⟩ := by
    rw [handle, show 24 = 22 + 2 from rfl, Function.iterate_add_apply, iterate_next_two,
      if_neg (by omega)]
  rw [start]
  exact ⟨straight.1, straight.1 ▸ straight.2⟩

/-- The state of the handler at the call: the registers of the caller, and on the stack
the arguments, the data segment and the number. -/
theorem prepared_spec (im : Image) (callee : Word → Cpu → Cpu) (c : Caller) :
    (prepared im callee c).cpu.regs .esp = 0xFFFFEFD0 ∧
    (∀ r, r ≠ .esp → (prepared im callee c).cpu.regs r = c.cpu.regs r) ∧
    (prepared im callee c).cpu.mem = store32 (store32 (store32 (store32 (store32 (store32 (store32
      (enter im c).cpu.mem 0xFFFFEFE8 (c.cpu.regs .eax))
      0xFFFFEFE4 ((c.cpu.segs .ds).setWidth 32)) 0xFFFFEFE0 (c.cpu.regs .edi))
      0xFFFFEFDC (c.cpu.regs .esi)) 0xFFFFEFD8 (c.cpu.regs .edx)) 0xFFFFEFD4 (c.cpu.regs .ecx))
      0xFFFFEFD0 (c.cpu.regs .ebx) ∧
    (prepared im callee c).reads = [0xFFFFEFE8] ∧ (prepared im callee c).calls = [] := by
  have esp : (compared im c).regs .esp = 0xFFFFEFEC := enter_esp im c
  have regs : ∀ r, r ≠ .esp → (compared im c).regs r = c.cpu.regs r := fun r hr => enter_regs im c hr
  have ds : (compared im c).segs .ds = c.cpu.segs .ds :=
    enter_segs im c (x := .ds) (by decide) (by decide)
  have mem : (compared im c).mem = (enter im c).cpu.mem := rfl
  obtain ⟨sesp, sregs, smem, sreads, scalls⟩ :=
    saveSegments_spec im callee ⟨compared im c, 2, [], []⟩ esp
  obtain ⟨pesp, pregs, peax, pmem, preads, pcalls⟩ :=
    pushArguments_spec im callee _ sesp
  simp only [prepared, List.foldl_append]
  refine ⟨pesp, ?_, ?_, ?_, ?_⟩
  · intro r hr
    by_cases heax : r = .eax
    · subst heax
      rw [peax, smem, regs .eax (by decide)]
      simp (disch := decide) [load32_store32, load32_store32_of_ne]
    · rw [pregs r heax hr, sregs r heax hr]
      exact regs r hr
  · rw [pmem, smem]
    simp only [sregs, ne_eq, reduceCtorEq, not_false_eq_true, regs, ds, mem]
  · rw [preads, sreads]
    rfl
  · rw [pcalls, scalls]

/-- What the function of the table is entered with. -/
def callEntry (im : Image) (c : Caller) : Cpu :=
  let k := (prepared im (fun _ => id) c).cpu
  { k.push (im.place 18) with eip := load32 k.mem (im.table + c.cpu.regs .eax * 4) }

theorem prepared_congr : prepared im callee c = prepared im (fun _ => id) c :=
  Run.foldl_exec_congr (by simp [saveSegments, pushArguments]) _ _

theorem prepared_pc : (prepared im callee c).pc = 17 := rfl

/-- The one call of a dispatched number. -/
theorem calls_of_lt (h : (c.cpu.regs .eax).toInt < 5) :
    (handle im callee c).calls =
      [⟨im.table + c.cpu.regs .eax * 4, (callEntry im c).eip, callEntry im c⟩] := by
  obtain ⟨-, regs, -, -, calls⟩ := prepared_spec im (fun _ => id) c
  have eax := regs .eax (by decide)
  rw [(handle_of_lt h).1]
  change ((prepared im callee c).exec im.place callee (.call im.table .eax)).calls = _
  rw [prepared_congr]
  simp only [Run.exec, Run.advance, calls, eax, List.nil_append, prepared_pc]
  rfl

/-- A store to the kernel stack does not reach a word below the heap. -/
theorem load32_store32_low (m : Word → Byte) {a b : Word} (v : Word)
    (hb : b.toNat + 4 ≤ kernelHeapBegin.toNat) (ha : kernelHeapEnd ≤ a) (ha' : a ≤ 0xFFFFFFF0) :
    load32 (store32 m a v) b = load32 m b := by
  apply load32_store32_of_ne
  intro i j heq
  have hb' : b.toNat + 4 ≤ 0xEFC00000 := hb
  have ha1 : 0xFFC00000 ≤ a.toNat := ha
  have ha2 : a.toNat ≤ 0xFFFFFFF0 := ha'
  have := congrArg BitVec.toNat heq
  simp only [BitVec.toNat_add, BitVec.toNat_ofNat] at this
  omega

/-- The function called is the one the table names. -/
theorem callEntry_eip (h : (c.cpu.regs .eax).toNat < nrSyscalls) :
    (callEntry im c).eip = load32 c.cpu.mem (im.table + c.cpu.regs .eax * 4) := by
  have low := im.low
  have slot : (im.table + c.cpu.regs .eax * 4).toNat + 4 ≤ kernelHeapBegin.toNat := by
    have heap : kernelHeapBegin.toNat = 0xEFC00000 := by decide
    have num : (c.cpu.regs .eax).toNat < 5 := h
    simp only [nrSyscalls, heap] at low
    rw [heap, BitVec.toNat_add, BitVec.toNat_mul]
    change (im.table.toNat + (c.cpu.regs .eax).toNat * 4 % 2 ^ 32) % 2 ^ 32 + 4 ≤ _
    omega
  obtain ⟨-, -, mem, -⟩ := prepared_spec im (fun _ => id) c
  change load32 (prepared im (fun _ => id) c).cpu.mem _ = _
  rw [mem, enter_mem]
  simp (disch := first | exact slot | decide) only [load32_store32_low]

/-! ## Confinement -/

/-- A number below `NR_SYSCALLS` calls the function the table holds for it; every other
number goes back to the caller without a call and without a read outside the table. -/
structure Confined (im : Image) (callee : Word → Cpu → Cpu) (c : Caller) : Prop where
  dispatched : (c.cpu.regs .eax).toNat < nrSyscalls → ∃ entry,
    (handle im callee c).calls = [⟨im.table + c.cpu.regs .eax * 4,
      load32 c.cpu.mem (im.table + c.cpu.regs .eax * 4), entry⟩]
  refused : nrSyscalls ≤ (c.cpu.regs .eax).toNat →
    (handle im callee c).calls = [] ∧
    (∀ a ∈ (handle im callee c).reads, ∃ i < nrSyscalls, a = im.table + BitVec.ofNat 32 (4 * i)) ∧
    (handle im callee c).Returns (isr0x80 im) ∧ Resumed c (int0x80 im callee c)

theorem toInt_lt_five_iff (v : Word) : v.toInt < 5 ↔ v.toNat < 5 ∨ 2 ^ 31 ≤ v.toNat := by
  have := v.isLt
  rw [BitVec.toInt_eq_toNat_cond]
  split <;> omega

theorem resumed_of_le (h : 5 ≤ (c.cpu.regs .eax).toInt) : Resumed c (int0x80 im callee c) := by
  have balanced : Balanced c (compared im c) :=
    (enter_balanced im c).congr (enter_esp im c) (fun _ _ _ => rfl)
  have segs : ∀ x, x ∉ [Seg.cs, .ss] → (compared im c).segs x = c.cpu.segs x := by
    intro x hx
    exact enter_segs im c (by rintro rfl; simp at hx) (by rintro rfl; simp at hx)
  rw [int0x80, handle_of_le h]
  refine ⟨?_, ?_, balanced.iret_eip, balanced.iret_eflags⟩
  · intro r
    rw [balanced.iret_regs]
    split
    · next hr => rw [hr]
    · next hr => exact enter_regs im c hr
  · intro x
    rw [balanced.iret_segs]
    · split
      · rfl
      · next hx => exact segs x hx
    · intro hx
      rw [segs x (by rintro hmem; cases x <;> simp_all)]
      exact c.data x hx

/-- A negative number passes the signed comparison and is dispatched. -/
theorem not_confined_of_le (im : Image) (callee : Word → Cpu → Cpu) {c : Caller}
    (hlarge : 2 ^ 31 ≤ (c.cpu.regs .eax).toNat) : ¬ Confined im callee c := by
  intro h
  have hlt : (c.cpu.regs .eax).toInt < 5 := (toInt_lt_five_iff _).mpr (.inr hlarge)
  have hcalls := (h.refused (by simp only [nrSyscalls]; omega)).1
  rw [calls_of_lt hlt] at hcalls
  cases hcalls

theorem confined_of_lt (im : Image) (callee : Word → Cpu → Cpu) {c : Caller}
    (hsmall : (c.cpu.regs .eax).toNat < 2 ^ 31) : Confined im callee c := by
  constructor
  · intro hnum
    have hlt : (c.cpu.regs .eax).toInt < 5 := (toInt_lt_five_iff _).mpr (.inl hnum)
    exact ⟨callEntry im c, by rw [calls_of_lt hlt, callEntry_eip hnum]⟩
  · intro hnum
    have hle : 5 ≤ (c.cpu.regs .eax).toInt := by
      have := (toInt_lt_five_iff (c.cpu.regs .eax)).not
      simp only [nrSyscalls] at hnum
      omega
    refine ⟨?_, ?_, ?_, resumed_of_le hle⟩
    · rw [handle_of_le hle]
    · rw [handle_of_le hle]
      simp
    · rw [handle_of_le hle]
      rfl

/-- The branch of the handler is a signed one, so exactly the numbers below `2 ^ 31` are
confined to the table. -/
theorem confined_iff (im : Image) (callee : Word → Cpu → Cpu) (c : Caller) :
    Confined im callee c ↔ (c.cpu.regs .eax).toNat < 2 ^ 31 := by
  constructor
  · intro h
    by_contra hlarge
    exact not_confined_of_le im callee (Nat.not_lt.mp hlarge) h
  · exact confined_of_lt im callee

/-- A caller in user mode with the selectors the kernel gives to a task. -/
def userCaller (regs : Reg → Word) : Caller where
  cpu :=
    { regs := regs
      segs := fun x => if x = .cs then 0x1B else 0x23
      eip := 0x8048000
      eflags := 0x202
      mem := fun _ => 0 }
  user := by simp
  data := by simp [kernelDataSelector]

/-- A kernel whose table starts at `0x110000`. -/
def sampleImage : Image := ⟨0x110000, fun n => 0x100000 + BitVec.ofNat 32 n, by decide⟩

/-- A function that only returns a value. -/
def returning (v : Word) (k : Cpu) : Cpu := (k.setReg .eax v).setReg .esp (k.regs .esp + 4)

/-- The number `-1` calls the word before the table. -/
theorem minus_one_not_confined :
    ¬ Confined sampleImage (fun _ => returning 0)
      (userCaller fun r => if r = .eax then 0xFFFFFFFF else 0) :=
  not_confined_of_le _ _ (by decide)

end Jkos.Syscall
