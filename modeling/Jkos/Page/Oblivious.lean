import Jkos.Lib.Oblivious
import Jkos.Page.Ops

/-!
# What memory holds does not matter

The functions on pages copy and clear memory, but what they do to entries, tables and the
stack of frames, and whether they fail, does not depend on what memory holds. Nor do they
look at the bounds of user memory, or change them.
-/

namespace Jkos.Page

open Exec Kheap

variable {g : Layout} {low high : Word} {s s' s₀ s₁ : Kernel}

/-- The second state is the first one with other contents of memory and other bounds of user
memory. -/
def Twin (low high : Word) (s t : Kernel) : Prop :=
  ∃ m, t = { s with phys := m, userMemLow := low, userMemHigh := high }

/-- Taking a state for its own twin. -/
theorem Twin.refl (s : Kernel) : Twin s.userMemLow s.userMemHigh s s := ⟨s.phys, rfl⟩

theorem Twin.phys (s : Kernel) (m : Frame → BitVec 12 → Byte) :
    Twin s.userMemLow s.userMemHigh s { s with phys := m } := ⟨m, rfl⟩

/-- An oblivious program leaves the bounds alone. -/
theorem bounds_of_oblivious {α : Type} {x : Prog α}
    (hx : ∀ low high, Oblivious (Twin low high) x) (s : Kernel) :
    (x s).2.userMemLow = s.userMemLow ∧ (x s).2.userMemHigh = s.userMemHigh := by
  obtain ⟨-, m, hm⟩ := hx s.userMemLow s.userMemHigh s s (.refl s)
  exact ⟨(congrArg Kernel.userMemLow hm :), (congrArg Kernel.userMemHigh hm :)⟩

/-- Components that are the same in twins. -/
theorem twin_read {α : Type} {f : Kernel → α}
    (hf : ∀ (s : Kernel) m low high,
      f { s with phys := m, userMemLow := low, userMemHigh := high } = f s) :
    Oblivious (Twin low high) (read f : Prog α) :=
  oblivious_read fun s _ ⟨m, hm⟩ => hm ▸ hf s m low high

/-- Changes of other components. -/
theorem twin_modify {f : Kernel → Kernel}
    (hf : ∀ (s : Kernel) m low high, ∃ m',
      f { s with phys := m, userMemLow := low, userMemHigh := high } =
        { f s with phys := m', userMemLow := low, userMemHigh := high }) :
    Oblivious (Twin low high) (modify f : Prog Unit) :=
  oblivious_modify fun s _ ⟨m, hm⟩ => hm ▸ hf s m low high

/-! ## Entries, faults and accesses -/

theorem alloc_oblivious (p : Slot) (user writable : Bool) :
    Oblivious (Twin low high) (alloc p user writable) := by
  rintro s _ ⟨m, rfl⟩
  set t : Kernel := { s with phys := m, userMemLow := low, userMemHigh := high } with ht
  by_cases hzero : (s.page p).addr = 0
  · have hzero' : (t.page p).addr = 0 := hzero
    cases hf : s.frames with
    | nil =>
        have hf' : t.frames = [] := hf
        rw [alloc_of_nil hzero hf, alloc_of_nil hzero' hf']
        exact ⟨rfl, m, rfl⟩
    | cons f rest =>
        have hf' : t.frames = f :: rest := hf
        rw [alloc_of_cons hzero hf, alloc_of_cons hzero' hf']
        exact ⟨rfl, m, rfl⟩
  · have hheld : (t.page p).addr ≠ 0 := hzero
    rw [alloc_of_held hzero, alloc_of_held hheld]
    exact ⟨rfl, m, rfl⟩

theorem fillUint32_oblivious (p : Slot) (val : Word) :
    Oblivious (Twin low high) (fillUint32 p val) :=
  twin_modify fun _ _ _ _ => ⟨_, rfl⟩

theorem copyPagePhysical_oblivious (dest src : Word) :
    Oblivious (Twin low high) (copyPagePhysical dest src) :=
  twin_modify fun _ _ _ _ => ⟨_, rfl⟩

theorem lazyAlloc_oblivious (p : Slot) (user writable fillZero : Bool) :
    Oblivious (Twin low high) (lazyAlloc p user writable fillZero) := by
  refine oblivious_bind (twin_modify fun _ _ _ _ => ⟨_, rfl⟩) fun _ =>
    oblivious_bind (twin_read fun _ _ _ _ => rfl) fun _ =>
      oblivious_ite (fun _ => twin_modify fun _ _ _ _ => ⟨_, rfl⟩) fun _ =>
        oblivious_ite (fun _ => fillUint32_oblivious p 0) fun _ => oblivious_pure _

theorem free_oblivious (p : Slot) : Oblivious (Twin low high) (free p) := by
  refine twin_modify fun s m low high => ⟨m, ?_⟩
  change (free p { s with phys := m, userMemLow := low, userMemHigh := high }).2 =
    { (free p s).2 with phys := m, userMemLow := low, userMemHigh := high }
  set t : Kernel := { s with phys := m, userMemLow := low, userMemHigh := high } with ht
  by_cases hzero : (s.page p).addr = 0
  · rw [free_of_zero hzero, free_of_zero (s := t) hzero]
  · by_cases hone : s.frameRefCnt (s.page p).addr = 1
    · rw [free_of_one hzero hone, free_of_one (s := t) hzero hone]
      rfl
    · rw [free_of_many hzero hone, free_of_many (s := t) hzero hone]
      rfl

theorem pageFault_oblivious (addr errCode eip : Word) :
    Oblivious (Twin low high) (pageFault addr errCode eip) := by
  refine oblivious_bind (twin_read fun _ _ _ _ => rfl) fun d =>
    oblivious_bind (twin_read fun _ _ _ _ => rfl) fun o => ?_
  cases o with
  | none => exact oblivious_throw _
  | some p =>
      refine oblivious_bind (twin_read fun _ _ _ _ => rfl) fun e =>
        oblivious_bind (twin_read fun _ _ _ _ => rfl) fun codeEnd => ?_
      refine oblivious_ite (fun _ => oblivious_throw _) fun _ => oblivious_ite (fun _ => ?_)
        fun _ => oblivious_ite (fun _ => ?_) fun _ => oblivious_throw _
      · refine oblivious_bind (alloc_oblivious p _ _) fun _ =>
          oblivious_bind (twin_read fun _ _ _ _ => rfl) fun _ => ?_
        exact oblivious_ite (fun _ => fillUint32_oblivious p 0) fun _ => oblivious_pure _
      · refine oblivious_bind (twin_read fun _ _ _ _ => rfl) fun n =>
          oblivious_ite (fun _ => oblivious_throw _) fun _ =>
            oblivious_ite (fun _ => twin_modify fun _ _ _ _ => ⟨_, rfl⟩) fun _ => ?_
        refine oblivious_bind (twin_modify fun _ _ _ _ => ⟨_, rfl⟩) fun _ =>
          oblivious_bind (alloc_oblivious p _ _) fun _ =>
            oblivious_bind (twin_read fun _ _ _ _ => rfl) fun _ => ?_
        exact copyPagePhysical_oblivious _ _

theorem accessLoop_oblivious (addr : Word) (write : Bool) (eip : Word) (fuel : Nat) :
    Oblivious (Twin low high) (accessLoop addr write eip fuel) := by
  induction fuel with
  | zero => exact oblivious_throw _
  | succ fuel ih =>
      refine oblivious_bind (twin_read fun _ _ _ _ => rfl) fun w => ?_
      cases w with
      | ok f => exact oblivious_pure f
      | error errCode => exact oblivious_bind (pageFault_oblivious addr errCode eip) fun _ => ih

theorem writeByte_oblivious (addr : Word) (v : Byte) (eip : Word) :
    Oblivious (Twin low high) (writeByte addr v eip) :=
  oblivious_bind (accessLoop_oblivious addr true eip loopBound) fun _ =>
    twin_modify fun _ _ _ _ => ⟨_, rfl⟩

theorem store_oblivious (dest : Word) (vs : List Byte) :
    Oblivious (Twin low high) (store dest vs) := by
  induction vs generalizing dest with
  | nil => exact oblivious_pure _
  | cons v vs ih =>
      exact oblivious_bind (twin_read fun _ _ _ _ => rfl) fun eip =>
        oblivious_bind (writeByte_oblivious dest v eip) fun _ => ih (dest + 1)

theorem memset_oblivious (dest : Word) (val : Byte) (cnt : Nat) :
    Oblivious (Twin low high) (memset dest val cnt) := by
  induction cnt generalizing dest with
  | zero => exact oblivious_pure _
  | succ cnt ih =>
      exact oblivious_bind (twin_read fun _ _ _ _ => rfl) fun eip =>
        oblivious_bind (writeByte_oblivious dest val eip) fun _ => ih (dest + 1)

/-! ## Tables and intervals -/

theorem getPhysicalAddr_oblivious (d addr : Word) (alloc user writable : Bool) :
    Oblivious (Twin low high) (getPhysicalAddr d addr alloc user writable) := by
  refine oblivious_bind (twin_read fun _ _ _ _ => rfl) fun b =>
    oblivious_ite (fun _ => oblivious_pure _) fun _ =>
      oblivious_bind (twin_read fun _ _ _ _ => rfl) fun o => ?_
  cases o with
  | none => exact oblivious_pure _
  | some p =>
      refine oblivious_bind (twin_read fun _ _ _ _ => rfl) fun _ => oblivious_ite (fun _ =>
        oblivious_ite (fun _ => oblivious_pure _) fun _ => ?_) fun _ => ?_
      · exact oblivious_bind (alloc_oblivious p user writable) fun _ =>
          oblivious_bind (twin_read fun _ _ _ _ => rfl) fun _ => oblivious_pure _
      · exact oblivious_bind (twin_read fun _ _ _ _ => rfl) fun _ => oblivious_pure _

theorem forPages_oblivious {body : Word → Prog Unit}
    (hbody : ∀ i, Oblivious (Twin low high) (body i)) (stop : Word) (fuel : Nat) (i : Word) :
    Oblivious (Twin low high) (forPages body stop fuel i) := by
  induction fuel generalizing i with
  | zero => exact oblivious_throw _
  | succ fuel ih =>
      exact oblivious_ite (fun _ => oblivious_bind (hbody i) fun _ => ih _)
        fun _ => oblivious_pure _

theorem interval_oblivious {body : Word → Prog Unit}
    (hbody : ∀ i, Oblivious (Twin low high) (body i)) (start stop : Word) :
    Oblivious (Twin low high) (interval body start stop) :=
  oblivious_ite (fun _ => forPages_oblivious hbody stop loopBound start)
    fun _ => oblivious_throw _

section Kmalloc

variable {kmalloc : Word → Nat → Prog Word}
  (hkmalloc : ∀ size palign, Oblivious (Twin low high) (kmalloc size palign))
include hkmalloc

theorem getPageWith_oblivious (d addr : Word) :
    Oblivious (Twin low high) (getPageWith kmalloc d addr) := by
  refine oblivious_bind (twin_read fun _ _ _ _ => rfl) fun t =>
    oblivious_ite (fun _ => ?_) fun _ => oblivious_pure _
  refine oblivious_bind (hkmalloc _ _) fun t =>
    oblivious_bind (twin_modify fun _ _ _ _ => ⟨_, rfl⟩) fun _ =>
      oblivious_bind (twin_modify fun _ _ _ _ => ⟨_, rfl⟩) fun _ =>
        oblivious_bind (memset_oblivious t 0 _) fun _ =>
          oblivious_bind (twin_read fun _ _ _ _ => rfl) fun _ =>
            oblivious_bind (getPhysicalAddr_oblivious _ _ _ _ _) fun _ =>
              oblivious_bind (twin_modify fun _ _ _ _ => ⟨_, rfl⟩) fun _ => oblivious_pure _

theorem lazyAllocIntervalWith_oblivious (d start stop : Word) (user writable fillZero : Bool) :
    Oblivious (Twin low high)
      (lazyAllocIntervalWith kmalloc d start stop user writable fillZero) :=
  interval_oblivious (fun i => oblivious_bind (getPageWith_oblivious hkmalloc d i) fun p =>
    lazyAlloc_oblivious p user writable fillZero) start stop

theorem allocIntervalWith_oblivious (d start stop : Word) (user writable : Bool) :
    Oblivious (Twin low high) (allocIntervalWith kmalloc d start stop user writable) :=
  interval_oblivious (fun i => oblivious_bind (getPageWith_oblivious hkmalloc d i) fun p =>
    alloc_oblivious p user writable) start stop

theorem kmallocWith_oblivious (size : Word) (palign : Nat) :
    Oblivious (Twin low high) (kmallocWith kmalloc size palign) := by
  refine oblivious_bind (twin_read fun _ _ _ _ => rfl) fun _ => oblivious_ite (fun _ => ?_)
    fun _ => ?_
  · exact oblivious_bind (twin_read fun _ _ _ _ => rfl) fun _ =>
      oblivious_bind (twin_modify fun _ _ _ _ => ⟨_, rfl⟩) fun _ => oblivious_pure _
  · have hheap : ∀ {α : Type} (x : Exec Heap Fault α), Oblivious (Twin low high) (onHeap x) := by
      rintro α x s _ ⟨m, rfl⟩
      exact ⟨rfl, m, rfl⟩
    exact oblivious_bind (hheap _) fun _ => oblivious_bind (twin_read fun _ _ _ _ => rfl) fun _ =>
      oblivious_bind (lazyAllocIntervalWith_oblivious hkmalloc _ _ _ _ _ _) fun _ =>
        oblivious_bind (store_oblivious _ _) fun _ => oblivious_pure _

end Kmalloc

theorem kmallocAt_oblivious (n : Nat) (size : Word) (palign : Nat) :
    Oblivious (Twin low high) (kmallocAt n size palign) := by
  induction n generalizing size palign with
  | zero => exact oblivious_throw _
  | succ n ih => exact kmallocWith_oblivious ih size palign

theorem kmalloc_oblivious (size : Word) (palign : Nat) :
    Oblivious (Twin low high) (kmalloc size palign) :=
  kmallocAt_oblivious loopBound size palign

theorem getPage_oblivious (d addr : Word) :
    Oblivious (Twin low high) (getPageWith kmalloc d addr) :=
  getPageWith_oblivious kmalloc_oblivious d addr

/-! ## Directories -/

theorem freeInterval_oblivious (d start stop : Word) :
    Oblivious (Twin low high) (freeInterval d start stop) := by
  refine interval_oblivious (fun i => oblivious_bind (twin_read fun _ _ _ _ => rfl) fun o => ?_)
    start stop
  cases o with
  | none => exact oblivious_pure _
  | some p =>
      exact oblivious_bind (twin_read fun _ _ _ _ => rfl) fun _ =>
        oblivious_ite (fun _ => free_oblivious p) fun _ => oblivious_pure _

theorem forIdx_oblivious {body : BitVec 10 → Prog Unit}
    (hbody : ∀ i, Oblivious (Twin low high) (body i)) (cnt i : Nat) :
    Oblivious (Twin low high) (forIdx body cnt i) := by
  induction cnt generalizing i with
  | zero => exact oblivious_pure _
  | succ cnt ih => exact oblivious_bind (hbody _) fun _ => ih (i + 1)

theorem cloneEntry_oblivious (dest src : Word) (i : BitVec 10) :
    Oblivious (Twin low high) (cloneEntry dest src i) := by
  refine twin_modify fun s m low high => ⟨m, ?_⟩
  by_cases hzero : (s.page ⟨src, i⟩).addr = 0
  · simp only [hzero, if_true]
    rfl
  · simp only [hzero, if_false]
    rfl

theorem cloneTable_oblivious (src : Word) : Oblivious (Twin low high) (cloneTable src) :=
  oblivious_bind (kmalloc_oblivious _ _) fun dest =>
    oblivious_bind (twin_modify fun _ _ _ _ => ⟨_, rfl⟩) fun _ =>
      oblivious_bind (memset_oblivious dest 0 _) fun _ =>
        oblivious_bind (forIdx_oblivious (cloneEntry_oblivious dest src) _ _) fun _ =>
          oblivious_pure _

theorem cloneDirectory_oblivious (src : Word) :
    Oblivious (Twin low high) (cloneDirectory src) := by
  have hlink : ∀ dest i, Oblivious (Twin low high) (linkTable dest src i) :=
    fun dest i => twin_modify fun _ _ _ _ => ⟨_, rfl⟩
  have hstack : ∀ dest i, Oblivious (Twin low high) (copyStack dest i) := fun dest i =>
    oblivious_bind (getPage_oblivious dest i) fun _ =>
      oblivious_bind (getPhysicalAddr_oblivious _ _ _ _ _) fun _ =>
        oblivious_bind (twin_read fun _ _ _ _ => rfl) fun _ =>
          oblivious_bind (getPhysicalAddr_oblivious _ _ _ _ _) fun _ =>
            copyPagePhysical_oblivious _ _
  have htable : ∀ dest i, Oblivious (Twin low high) (cloneUserTable dest src i) := fun dest i =>
    oblivious_bind (twin_read fun _ _ _ _ => rfl) fun t => oblivious_ite (fun _ => oblivious_pure _)
      fun _ => oblivious_bind (cloneTable_oblivious t) fun _ =>
        oblivious_bind (twin_modify fun _ _ _ _ => ⟨_, rfl⟩) fun _ =>
          oblivious_bind (twin_read fun _ _ _ _ => rfl) fun _ =>
            oblivious_bind (getPhysicalAddr_oblivious _ _ _ _ _) fun _ =>
              oblivious_bind (twin_read fun _ _ _ _ => rfl) fun _ =>
                twin_modify fun _ _ _ _ => ⟨_, rfl⟩
  exact oblivious_bind (kmalloc_oblivious _ _) fun dest =>
    oblivious_bind (twin_modify fun _ _ _ _ => ⟨_, rfl⟩) fun _ =>
      oblivious_bind (memset_oblivious dest 0 _) fun _ =>
        oblivious_bind (twin_read fun _ _ _ _ => rfl) fun _ =>
          oblivious_bind (getPhysicalAddr_oblivious _ _ _ _ _) fun _ =>
            oblivious_bind (twin_modify fun _ _ _ _ => ⟨_, rfl⟩) fun _ =>
              oblivious_bind (twin_read fun _ _ _ _ => rfl) fun low =>
                oblivious_bind (forIdx_oblivious (hlink dest) _ _) fun _ =>
                  oblivious_bind (forIdx_oblivious (hlink dest) _ _) fun _ =>
                    oblivious_bind (forPages_oblivious (hstack dest) _ _ _) fun _ =>
                      oblivious_bind (forIdx_oblivious (htable dest) _ _) fun _ =>
                        oblivious_bind (twin_modify fun _ _ _ _ => ⟨_, rfl⟩) fun _ =>
                          oblivious_pure _

theorem initEmptyPages_oblivious : Oblivious (Twin low high) initEmptyPages := by
  refine oblivious_bind (kmalloc_oblivious _ _) fun addr =>
    oblivious_bind (twin_modify fun _ _ _ _ => ⟨_, rfl⟩) fun _ =>
      oblivious_bind (twin_read fun _ _ _ _ => rfl) fun d =>
        oblivious_bind (twin_read fun _ _ _ _ => rfl) fun o => ?_
  cases o with
  | none => exact oblivious_throw _
  | some p =>
      refine oblivious_bind (twin_modify fun _ _ _ _ => ⟨_, rfl⟩) fun _ =>
        oblivious_bind (twin_read fun _ _ _ _ => rfl) fun o' => ?_
      cases o' with
      | none => exact oblivious_throw _
      | some q =>
          exact oblivious_bind (twin_modify fun _ _ _ _ => ⟨_, rfl⟩) fun _ =>
            oblivious_bind (twin_modify fun _ _ _ _ => ⟨_, rfl⟩) fun _ =>
              twin_modify fun _ _ _ _ => ⟨_, rfl⟩

/-! ## Runs -/

theorem PageOp.oblivious (op : PageOp) : Oblivious (Twin low high) op.exec := by
  cases op with
  | getPage d addr => exact oblivious_bind (getPage_oblivious d addr) fun _ => oblivious_pure _
  | alloc d addr user writable =>
      exact oblivious_bind (getPage_oblivious d addr) fun p => alloc_oblivious p user writable
  | lazyAlloc d addr user writable fillZero =>
      exact oblivious_bind (getPage_oblivious d addr) fun p =>
        lazyAlloc_oblivious p user writable fillZero
  | free d addr =>
      refine oblivious_bind (twin_read fun _ _ _ _ => rfl) fun o => ?_
      cases o with
      | none => exact oblivious_pure _
      | some p => exact free_oblivious p
  | allocInterval d start stop user writable =>
      exact allocIntervalWith_oblivious kmalloc_oblivious d start stop user writable
  | lazyAllocInterval d start stop user writable fillZero =>
      exact lazyAllocIntervalWith_oblivious kmalloc_oblivious d start stop user writable fillZero
  | freeInterval d start stop => exact freeInterval_oblivious d start stop
  | clone src => exact oblivious_bind (cloneDirectory_oblivious src) fun _ => oblivious_pure _
  | access addr write eip =>
      refine oblivious_bind (twin_read fun _ _ _ _ => rfl) fun w => ?_
      cases w with
      | ok f => exact oblivious_pure _
      | error errCode => exact pageFault_oblivious addr errCode eip
  | enable d => exact twin_modify fun _ _ _ _ => ⟨_, rfl⟩

/-- No call moves the bounds of user memory. -/
theorem PageRuns.bounds (h : PageRuns s s') :
    s'.userMemLow = s.userMemLow ∧ s'.userMemHigh = s.userMemHigh := by
  induction h with
  | refl => exact ⟨rfl, rfl⟩
  | @tail t u hchain hstep ih =>
      obtain ⟨op, hop⟩ := hstep
      obtain ⟨hlow, hhigh⟩ := bounds_of_oblivious (fun _ _ => op.oblivious) t
      rw [hop.run] at hlow hhigh
      exact ⟨hlow.trans ih.1, hhigh.trans ih.2⟩

/-- The bounds of user memory are those that `kheap_finish_init` sets: the end of the tables
of the kernel, and the last byte in front of the kernel heap. -/
structure UserBounds (s : Kernel) : Prop where
  low : s.userMemLow.toNat = s.kernelLowNtable * 2 ^ 22
  high : s.userMemHigh = kernelHeapBegin - 1

/-- They stay so for ever. -/
theorem UserBounds.of_boot (h : UserBounds s₀) (hboot : Booted g s₀)
    (hinit : initEmptyPages s₀ = (.ok (), s₁)) (hrun : PageRuns s₁ s) : UserBounds s := by
  obtain ⟨F, hs⟩ := hrun.of_boot hboot hinit
  obtain ⟨hlow₁, hhigh₁⟩ := bounds_of_oblivious (fun _ _ => initEmptyPages_oblivious) s₀
  rw [hinit] at hlow₁ hhigh₁
  obtain ⟨hlow, hhigh⟩ := hrun.bounds
  refine ⟨?_, by rw [hhigh, hhigh₁, h.high]⟩
  rw [hlow, hlow₁, h.low, hs.linked.low, hboot.linked.low]

end Jkos.Page
