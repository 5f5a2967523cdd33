import Jkos.Interrupt.Resume

/-!
# The callback table and the gates

`init_idt` fills the empty places of `isr_callback_table` and builds the interrupt descriptor
table; `isr_register` puts a function in its place. An interrupt then goes through its gate to
its handler, and from there to the function that was registered last.
-/

namespace Jkos.Interrupt

open I386 Syscall

/-! ## The callback table -/

/-- A call of `isr_register`. -/
structure Registration where
  num : Int
  callback : Word

/-- `isr_register`. -/
def isrRegister (im : Image) (mem : Word → Byte) (r : Registration) : Word → Byte :=
  if r.num ≥ 0 ∧ r.num < 256 then store32 mem (im.slot r.num.toNat) r.callback else mem

/-- Put `isr_unhandled` where the table holds no function. -/
def fillEmpty (im : Image) (isrUnhandled : Word) (mem : Word → Byte) (i : Nat) : Word → Byte :=
  if load32 mem (im.slot i) = 0 then store32 mem (im.slot i) isrUnhandled else mem

/-- The first loop of `init_idt`. -/
def initCallbacks (im : Image) (isrUnhandled : Word) (mem : Word → Byte) : Word → Byte :=
  (List.range 256).foldl (fillEmpty im isrUnhandled) mem

/-- The function that was registered last for an interrupt. -/
def lastFor (int : Nat) : List Registration → Option Word
  | [] => none
  | r :: rs => (lastFor int rs).or (if r.num = int then some r.callback else none)

/-- The function for an interrupt, where `init_idt` ran between two series of registrations. -/
def callbackFor (isrUnhandled : Word) (before after : List Registration) (int : Nat) : Word :=
  match lastFor int after with
  | some f => f
  | none =>
      match lastFor int before with
      | some f => if f = 0 then isrUnhandled else f
      | none => isrUnhandled

variable {im : Image} {mem : Word → Byte} {i j int : Nat} {isrUnhandled v : Word}

theorem Image.slot_toNat (im : Image) (hi : i < 256) :
    (im.slot i).toNat = im.table.toNat + 4 * i := by
  have hlow := im.low
  rw [kernelHeapBegin_eq] at hlow
  simp only [Image.slot]
  bv_omega

/-- Each function has a place of its own. -/
theorem load32_store32_slot (im : Image) (mem : Word → Byte) (v : Word) (hi : i < 256)
    (hj : j < 256) :
    load32 (store32 mem (im.slot i) v) (im.slot j) =
      if j = i then v else load32 mem (im.slot j) := by
  split
  · next h => rw [h, load32_store32]
  · next h =>
      have hlow := im.low
      rw [kernelHeapBegin_eq] at hlow
      have hi' := im.slot_toNat hi
      have hj' := im.slot_toNat hj
      apply load32_store32_of_ne
      intro a b he
      have ha := a.isLt
      have hb := b.isLt
      bv_omega

theorem load32_isrRegister (im : Image) (mem : Word → Byte) (r : Registration) (hi : i < 256) :
    load32 (isrRegister im mem r) (im.slot i) =
      if r.num = i then r.callback else load32 mem (im.slot i) := by
  unfold isrRegister
  split
  · next hnum =>
      have hiff : r.num = i ↔ i = r.num.toNat := by omega
      rw [load32_store32_slot im mem r.callback (by omega) hi]
      simp only [hiff]
  · next hnum => rw [if_neg (by omega)]

theorem load32_isrRegister_foldl (im : Image) (rs : List Registration) (mem : Word → Byte)
    (hi : i < 256) :
    load32 (rs.foldl (isrRegister im) mem) (im.slot i) =
      (lastFor i rs).getD (load32 mem (im.slot i)) := by
  induction rs generalizing mem with
  | nil => rfl
  | cons r rs ih =>
      rw [List.foldl_cons, ih, load32_isrRegister im mem r hi, lastFor]
      cases lastFor i rs with
      | some f => rfl
      | none =>
          rw [Option.none_or]
          split <;> rfl

theorem load32_fillEmpty (hi : i < 256) (hj : j < 256) :
    load32 (fillEmpty im isrUnhandled mem i) (im.slot j) =
      if j = i ∧ load32 mem (im.slot j) = 0 then isrUnhandled else load32 mem (im.slot j) := by
  unfold fillEmpty
  split
  · next h =>
      rw [load32_store32_slot im mem isrUnhandled hi hj]
      by_cases hji : j = i
      · rw [if_pos hji, if_pos ⟨hji, hji ▸ h⟩]
      · rw [if_neg hji, if_neg fun h' => hji h'.1]
  · next h =>
      rw [if_neg]
      rintro ⟨rfl, hzero⟩
      exact h hzero

/-- After the first `n` rounds of the loop. -/
theorem load32_fillEmpty_foldl (im : Image) (isrUnhandled : Word) (mem : Word → Byte) (n : Nat)
    (hn : n ≤ 256) (hj : j < 256) :
    load32 ((List.range n).foldl (fillEmpty im isrUnhandled) mem) (im.slot j) =
      if j < n ∧ load32 mem (im.slot j) = 0 then isrUnhandled else load32 mem (im.slot j) := by
  induction n with
  | zero => simp
  | succ n ih =>
      rw [List.range_succ, List.foldl_append, List.foldl_cons, List.foldl_nil,
        load32_fillEmpty (by omega) hj, ih (by omega)]
      by_cases hjn : j = n
      · subst hjn
        simp
      · have hlt : j < n + 1 ↔ j < n := by omega
        simp [hjn, hlt]

/-- What the table holds after `init_idt` and any registrations before and after it. -/
theorem load32_callbacks (im : Image) (isrUnhandled : Word) (before after : List Registration)
    (hzero : ∀ i < 256, load32 mem (im.slot i) = 0) (hint : int < 256) :
    load32 (after.foldl (isrRegister im) (initCallbacks im isrUnhandled
      (before.foldl (isrRegister im) mem))) (im.slot int) =
      callbackFor isrUnhandled before after int := by
  rw [load32_isrRegister_foldl im after _ hint, initCallbacks,
    load32_fillEmpty_foldl im isrUnhandled _ 256 (by omega) hint,
    load32_isrRegister_foldl im before mem hint, hzero int hint, callbackFor]
  cases lastFor int after with
  | some f => rfl
  | none => cases lastFor int before <;> simp [hint]

/-! ## The gates -/

/-- A field of a word may be cut off before it is stored. -/
theorem setWidth_and_mask (n : Nat) (v mask : Word) (hn : n ≤ 32)
    (hmask : mask = BitVec.ofNat 32 (2 ^ n - 1)) : (v &&& mask).setWidth n = v.setWidth n := by
  subst hmask
  apply BitVec.eq_of_getLsbD_eq
  intro i hi
  simp only [BitVec.getLsbD_setWidth, BitVec.getLsbD_and, BitVec.getLsbD_ofNat,
    Nat.testBit_two_pow_sub_one, hi, show i < 32 by omega, decide_true, Bool.and_true]

/-- `IDT_entry_t`. -/
structure IdtEntry where
  offsetLow : BitVec 16
  selector : BitVec 16
  zero : Byte
  flag : Byte
  offsetHigh : BitVec 16

/-- `IDT_entry_t::set`. -/
def IdtEntry.set (g : IdtEntry) (offset : Word) (sel flag : Byte) : IdtEntry :=
  { g with
    offsetLow := (offset &&& 0xFFFF).setWidth 16
    offsetHigh := ((offset >>> 16) &&& 0xFFFF).setWidth 16
    selector := sel.setWidth 16
    zero := 0
    flag := flag }

/-- `LOOP_ALL_INTERRUPT`. -/
def allInterrupts : List Nat := List.range 48 ++ [0x80]

/-- `IDT_SEL`. -/
def idtSel : Byte := 0x08

/-- `IDT_FLAG`. -/
def idtFlag : Byte := 0b10001110

/-- Point one gate at its handler. -/
def addIsr (im : Image) (flag : Byte) (idt : Nat → IdtEntry) (n : Nat) : Nat → IdtEntry :=
  Function.update idt n ((idt n).set (im.isr n) idtSel flag)

/-- The table of gates that `init_idt` builds. -/
def initIdt (im : Image) : Nat → IdtEntry :=
  let idt := allInterrupts.foldl (addIsr im idtFlag) (fun _ => ⟨0, 0, 0, 0, 0⟩)
  addIsr im (idtFlag ||| 0b01100000) idt 0x80

namespace IdtEntry

/-- The address that a gate leads to. -/
def handler (g : IdtEntry) : Word := (g.offsetHigh ++ g.offsetLow : BitVec (16 + 16))

/-- A present gate for interrupts of 32-bit code. -/
def Valid (g : IdtEntry) : Prop := g.flag &&& 0b10011111 = 0b10001110

instance (g : IdtEntry) : Decidable g.Valid := inferInstanceAs (Decidable (_ = _))

/-- The privilege that `int` needs. -/
def dpl (g : IdtEntry) : Nat := ((g.flag >>> 5) &&& 3).toNat

/-- An interrupt as the processor raises it through a gate, or an exception instead. The
instruction `int` is a `software` interrupt. -/
def enter (g : IdtEntry) (software : Bool) (c : Cpu) : Option Cpu :=
  if ¬ g.Valid then none
  else if software = true ∧ g.dpl < (c.segs .cs &&& 3).toNat then none
  else if InKernel c then some (c.interruptInner g.selector g.handler)
  else some (c.interrupt kernelStackPos kernelDataSelector g.selector g.handler)

theorem handler_set (g : IdtEntry) (offset : Word) (sel flag : Byte) :
    (g.set offset sel flag).handler = offset := by
  simp only [handler, set]
  rw [setWidth_and_mask 16 offset 0xFFFF (by decide) rfl,
    setWidth_and_mask 16 (offset >>> 16) 0xFFFF (by decide) rfl]
  apply BitVec.eq_of_getLsbD_eq
  intro i hi
  rw [BitVec.getLsbD_append, BitVec.getLsbD_setWidth, BitVec.getLsbD_setWidth,
    BitVec.getLsbD_ushiftRight]
  split
  · next h => simp [h]
  · next h =>
      have hlt : i - 16 < 16 := by omega
      have hadd : 16 + (i - 16) = i := by omega
      simp [hlt, hadd]

end IdtEntry

theorem addIsr_apply (im : Image) (flag : Byte) (idt : Nat → IdtEntry) (m n : Nat) :
    addIsr im flag idt m n = if n = m then (idt n).set (im.isr n) idtSel flag else idt n := by
  rw [addIsr, Function.update_apply]
  split
  · next h => rw [h]
  · rfl

theorem addIsr_foldl (im : Image) (flag : Byte) (ns : List Nat) (idt : Nat → IdtEntry) (n : Nat) :
    ns.foldl (addIsr im flag) idt n =
      if n ∈ ns then (idt n).set (im.isr n) idtSel flag else idt n := by
  induction ns generalizing idt with
  | nil => simp
  | cons m ns ih =>
      rw [List.foldl_cons, ih, addIsr_apply]
      by_cases hnm : n = m
      · subst hnm
        rw [if_pos rfl, if_pos List.mem_cons_self]
        -- setting an entry again does not change it
        split <;> rfl
      · rw [if_neg hnm]
        simp only [List.mem_cons, hnm, false_or]

/-- The table of gates. -/
theorem initIdt_apply (im : Image) (int : Nat) :
    initIdt im int =
      if int = 0x80 then IdtEntry.set ⟨0, 0, 0, 0, 0⟩ (im.isr int) idtSel (idtFlag ||| 0b01100000)
      else if int < 48 then IdtEntry.set ⟨0, 0, 0, 0, 0⟩ (im.isr int) idtSel idtFlag
      else ⟨0, 0, 0, 0, 0⟩ := by
  have hmem : int ∈ allInterrupts ↔ int < 48 ∨ int = 0x80 := by simp [allInterrupts]
  rw [initIdt, addIsr_apply, addIsr_foldl]
  by_cases hsys : int = 0x80
  · rw [if_pos hsys, if_pos hsys, if_pos (hmem.mpr (.inr hsys))]
    rfl
  · rw [if_neg hsys, if_neg hsys]
    by_cases hlt : int < 48
    · rw [if_pos hlt, if_pos (hmem.mpr (.inl hlt))]
    · rw [if_neg hlt, if_neg (fun h => (hmem.mp h).elim hlt hsys)]

/-- What a gate of this table lets through. -/
theorem enter_set (im : Image) (g : IdtEntry) (int : Nat) {flag : Byte} (software : Bool) (c : Cpu)
    (hflag : flag &&& 0b10011111 = 0b10001110) :
    (g.set (im.isr int) idtSel flag).enter software c =
      if software = true ∧ ((flag >>> 5) &&& 3).toNat < (c.segs .cs &&& 3).toNat then none
      else some (raise im int c) := by
  have hvalid : (g.set (im.isr int) idtSel flag).Valid := hflag
  rw [IdtEntry.enter, if_neg (not_not.mpr hvalid), IdtEntry.handler_set, raise]
  change (if software = true ∧ ((flag >>> 5) &&& 3).toNat < (c.segs .cs &&& 3).toNat then _
    else _) = _
  split
  · rfl
  · split <;> rfl

/-- Exactly the interrupts that have a handler get through, and from user mode `int` can raise
the system call only. -/
theorem enter_initIdt (im : Image) (software : Bool) (int : Nat) (c : Cpu) :
    (initIdt im int).enter software c =
      if int < 48 ∨ int = 0x80 then
        if software = true ∧ ¬ InKernel c ∧ int ≠ 0x80 then none else some (raise im int c)
      else none := by
  have hcpl : ¬ InKernel c ↔ 0 < (c.segs .cs &&& 3).toNat := by
    rw [InKernel, Nat.pos_iff_ne_zero, ne_eq, not_iff_not]
    exact BitVec.toNat_inj.symm
  have hle : ¬ 3 < (c.segs .cs &&& 3).toNat := by
    rw [BitVec.toNat_and]
    exact Nat.not_lt.mpr Nat.and_le_right
  rw [initIdt_apply]
  by_cases hsys : int = 0x80
  · rw [if_pos hsys, if_pos (.inr hsys), if_neg fun h => h.2.2 hsys,
      enter_set im _ int software c (by decide)]
    exact if_neg fun h => hle h.2
  · rw [if_neg hsys]
    by_cases hlt : int < 48
    · have hdpl : ((idtFlag >>> 5) &&& 3).toNat = 0 := by decide
      rw [if_pos hlt, if_pos (.inl hlt), enter_set im _ int software c (by decide), hdpl]
      simp only [← hcpl, ne_eq, hsys, not_false_eq_true, and_true]
    · rw [if_neg hlt, if_neg fun h => h.elim hlt hsys]
      rfl

/-! ## Delivery -/

/-- The processor goes on at the handler. -/
theorem raise_eip (im : Image) (int : Nat) (c : Cpu) : (raise im int c).eip = im.isr int := by
  rw [raise]
  split <;> rfl

/-- The memory after `init_idt` between two series of registrations. -/
def registered (im : Image) (isrUnhandled : Word) (before after : List Registration)
    (mem : Word → Byte) : Word → Byte :=
  after.foldl (isrRegister im) (initCallbacks im isrUnhandled (before.foldl (isrRegister im) mem))

theorem mem_of_lastFor {int : Nat} {f : Word} {rs : List Registration}
    (h : lastFor int rs = some f) : ∃ r ∈ rs, r.callback = f := by
  induction rs with
  | nil => cases h
  | cons r rs ih =>
      rw [lastFor, Option.or_eq_some_iff] at h
      obtain h | ⟨-, h⟩ := h
      · obtain ⟨r', hr', hf⟩ := ih h
        exact ⟨r', List.mem_cons_of_mem r hr', hf⟩
      · split at h
        · exact ⟨r, List.mem_cons_self, Option.some.inj h⟩
        · cases h

/-- The table holds no null pointer unless one is registered after `init_idt`. -/
theorem callbackFor_ne_zero {before after : List Registration} (hu : isrUnhandled ≠ 0)
    (hafter : ∀ r ∈ after, r.callback ≠ 0) : callbackFor isrUnhandled before after int ≠ 0 := by
  unfold callbackFor
  split
  · next f h =>
      obtain ⟨r, hr, rfl⟩ := mem_of_lastFor h
      exact hafter r hr
  · split
    · next f h =>
        split
        · exact hu
        · next hf => exact hf
    · exact hu

/-- An interrupt or exception gets through its gate to its own handler, which calls the function
that was registered last for it with what was interrupted, or `isr_unhandled`. -/
theorem interrupt_delivered (im : Image) (callee : Word → Cpu → Cpu)
    (before after : List Registration) {c : Cpu} {e : Option Word}
    (hzero : ∀ i < 256, load32 mem (im.slot i) = 0) (hint : int < 48)
    (htable : load32 c.mem (im.slot int) =
      load32 (registered im isrUnhandled before after mem) (im.slot int))
    (he : e.isSome = decide (int ∈ withErrorCode)) (room : Room c) :
    ∃ b start, (initIdt im int).enter false c = some b ∧ b.eip = im.isr int ∧
      (handle im callee int e b).calls = [(callbackFor isrUnhandled before after int, start)] ∧
      IsrRegisters.ofStack start 1 = .interrupted int e c ∧
      (isrUnhandled ≠ 0 → (∀ r ∈ after, r.callback ≠ 0) →
        callbackFor isrUnhandled before after int ≠ 0) := by
  have htarget := room.target im e (show int < 256 by omega)
  rw [htable, registered, load32_callbacks im isrUnhandled before after hzero (by omega)] at htarget
  refine ⟨raise im int c, entry im int e (raise im int c), ?_, raise_eip im int c, ?_, ?_,
    callbackFor_ne_zero⟩
  · rw [enter_initIdt, if_pos (.inl hint), if_neg fun h => Bool.false_ne_true h.1]
  · rw [handle_eq he, (restoreRegisters_spec callee _).1, htarget]
  · rw [ofStack_entry, saved_raise]

/-- The registrations of `Page::init` and `kmain`. -/
def kernelCallbacks : List Registration := [⟨14, 0x102000⟩, ⟨32, 0x102020⟩, ⟨33, 0x102040⟩]

/-- The kernel after these registrations. -/
def kernelRunning : Cpu where
  regs := fun r => if r = .esp then 0xFFFFEF00 else 0
  segs := fun x => if x = .cs then kernelCodeSelector else kernelDataSelector
  eip := 0x101000
  eflags := 0x202
  mem := registered sampleImage 0x102060 [] kernelCallbacks fun _ => 0

/-- A timer interrupt in the kernel. -/
theorem interrupt_delivered_timer :
    ∃ b start, (initIdt sampleImage 32).enter false kernelRunning = some b ∧
      b.eip = sampleImage.isr 32 ∧
      (handle sampleImage (fun _ => returning 0) 32 none b).calls = [(0x102020, start)] ∧
      IsrRegisters.ofStack start 1 = .interrupted 32 none kernelRunning := by
  have room : Room kernelRunning := fun _ => by decide
  have hzero : ∀ i < 256, load32 (fun _ => 0) (sampleImage.slot i) = 0 := by
    intro i _
    simp [load32]
  have htable : load32 kernelRunning.mem (sampleImage.slot 32) =
      load32 (registered sampleImage 0x102060 [] kernelCallbacks fun _ => 0)
        (sampleImage.slot 32) := rfl
  obtain ⟨b, start, through, stub, calls, argument, -⟩ := interrupt_delivered (e := none) sampleImage
    (fun _ => returning 0) [] kernelCallbacks hzero (show 32 < 48 by decide) htable (by decide) room
  exact ⟨b, start, through, stub, calls, argument⟩

end Jkos.Interrupt
