import Jkos.Page.Static
import Jkos.Page.Tables

/-!
# The identity map of static memory

`Page::init` maps every page of static memory to itself. The loop that does so calls
`get_page`, which may put one more table at the end of static memory and so move the bound
of the loop. This module adds the boot directory and its tables to the state of
`Jkos.Boot`: what a loop does to the end of static memory was computed there, and here it
is seen what it does to the map.
-/

namespace Jkos.Boot.Identity

open Exec (read modify throw)
open Page (Slot TableEntry Directory tbIdx tbOffset sizeofTable sizeofDirectory)

/-- The state of `Page::init` before paging is switched on. Tables are objects at their
addresses, and addresses are physical. -/
structure State where
  staticEnd : Word
  frames : List Word
  currentPageDir : Word
  dir : Directory
  page : Slot → TableEntry
  kernelLowNtable : Word
  userMemLow : Word
  userMemHigh : Word

abbrev Prog := Exec State Panic

/-- What `Jkos.Boot` sees of a state. -/
def State.outline (s : State) : Boot.State where
  staticEnd := s.staticEnd
  frames := s.frames
  tables i := decide (s.dir.tables i ≠ null)

/-- Update an entry in place. -/
def State.setEntry (s : State) (p : Slot) (f : TableEntry → TableEntry) : State :=
  { s with page := fun q => if q = p then f (s.page p) else s.page q }

/-- Run a step that touches neither the directory nor its tables. -/
def onOutline {α : Type} (x : Boot.Prog α) : Prog α := fun s =>
  match x s.outline with
  | (r, o) => (r, { s with staticEnd := o.staticEnd, frames := o.frames })

/-! ## The boot directory -/

/-- `get_page(addr, true)` of the boot directory. `get_physical_addr` is the identity until
`init_finished` is set. -/
def getPage (addr : Word) : Prog Slot := do
  let i := tbIdx addr
  let t ← read (·.dir.tables i)
  if t = null then
    let t ← onOutline (Boot.kmalloc sizeofTable 12)
    modify fun s => { s with
      page := fun q => if q.table = t then TableEntry.zero else s.page q
      dir := { s.dir with tables := fun j => if j = i then t else s.dir.tables j } }
    modify fun s => { s with
      dir := { s.dir with entries := fun j =>
        if j = i then ⟨true, true, true, (t >>> 12).setWidth 20⟩ else s.dir.entries j } }
    pure ⟨t, tbOffset addr⟩
  else pure ⟨t, tbOffset addr⟩

/-- The fields that the loop over static memory sets in an entry. -/
def selfEntry (i : Word) (e : TableEntry) : TableEntry :=
  { e with present := true, rw := true, user := false, addr := (i >>> 12).setWidth 20 }

/-- The body of the loop over static memory. -/
def mapSelf (i : Word) : Prog Unit := do
  let p ← getPage i
  modify (·.setEntry p (selfEntry i))

/-- `for (uint32_t i = begin; i < stop; i += 0x1000) body(i);` -/
def forPages (stop : State → Word) (body : Word → Prog Unit) : Nat → Word → Prog Unit
  | 0, _ => throw .diverge
  | fuel + 1, i => do
    if i < (← read stop) then
      body i
      forPages stop body fuel (i + 0x1000)
    else pure ()

/-- `Page::init` until `init_frames` returns. -/
def loadMap (m : Multiboot) : Prog Unit := do
  onOutline (preserveModule m.modEnd)
  let d ← onOutline (Boot.kmalloc sizeofDirectory 12)
  modify ({ · with currentPageDir := d, dir := Directory.zero })
  onOutline (initFrames m.mmap)

/-- `Page::init` from `kheap_init` until static memory is mapped. -/
def mapStatic : Prog Unit := do
  forPages (fun _ => kernelHeapEnd) (fun i => do let _ ← getPage i) loopBound kernelHeapBegin
  onOutline newRefCnt
  forPages (·.staticEnd) mapSelf loopBound 0x1000
  modify fun s => { s with kernelLowNtable := ((s.staticEnd - 1) >>> 22) + 1 }

/-- `kheap_finish_init`. -/
def kheapFinishInit : Prog Unit := modify fun s =>
  { s with userMemLow := getAligned s.staticEnd 22, userMemHigh := kernelHeapBegin - 1 }

/-- `Page::init` after static memory is mapped, until `kheap_finish_init` returns. -/
def finish : Prog Unit := do
  let limit ← read (·.staticEnd >>> 12)
  let frames ← onOutline (lift (dropFrames limit (← read (·.frames))))
  modify ({ · with frames := frames })
  -- `entries` follows 1024 pointers
  modify fun s => { s with dir := { s.dir with phyaddr := s.currentPageDir + 4096 } }
  kheapFinishInit

/-- Static memory starts behind the kernel image; the other memory holds anything. -/
def start (m : Multiboot) (garbage : State) : State :=
  { garbage with staticEnd := m.kernelImgEnd + 4 }

/-! ## What the processor sees -/

/-- Where a page is mapped, and the accesses that are permitted. -/
structure Mapping where
  frame : Frame
  writable : Bool
  user : Bool

/-- The walk of the processor through the directory entry and the table it points to. -/
def walk (s : State) (addr : Word) : Option Mapping :=
  let d := s.dir.entries (tbIdx addr)
  if d.present = false then none
  else
    let e := s.page ⟨Page.frameAddr d.addr, tbOffset addr⟩
    if e.present = false then none
    else some ⟨e.addr, d.rw && e.rw, d.user && e.user⟩

/-- Static memory is mapped to itself, for the kernel only, and nothing else below the kernel
heap is mapped. -/
def IdentityMapped (s : State) : Prop :=
  ∀ addr, addr < kernelHeapBegin → walk s addr =
    if 0x1000 ≤ addr ∧ addr < s.staticEnd then
      some ⟨(addr >>> 12).setWidth 20, true, false⟩
    else none

/-! ## The tables of the boot directory -/

/-- The tables with an index in `P` lie in static memory, each at a place of its own, and the
entries of the directory point to all tables. -/
structure TablesOk (P : BitVec 10 → Prop) (s : State) : Prop where
  aligned (i : BitVec 10) : (s.dir.tables i).toNat % 4096 = 0
  inside (i : BitVec 10) : P i →
    s.dir.tables i ≠ null → (s.dir.tables i).toNat + 4096 ≤ s.staticEnd.toNat
  injective (i j : BitVec 10) : P i → P j →
    s.dir.tables i ≠ null → s.dir.tables i = s.dir.tables j → i = j
  entries (i : BitVec 10) : s.dir.entries i =
    if s.dir.tables i = null then ⟨false, false, false, 0⟩
    else ⟨true, true, true, (s.dir.tables i >>> 12).setWidth 20⟩

/-- The entry for an address; a table that does not exist counts as a cleared one. -/
def State.entry (s : State) (addr : Word) : TableEntry :=
  if s.dir.tables (tbIdx addr) = null then TableEntry.zero
  else s.page ⟨s.dir.tables (tbIdx addr), tbOffset addr⟩

theorem entry_setEnd (s : State) (e : Word) (frames : List Word) (addr : Word) :
    ({ s with staticEnd := e, frames := frames } : State).entry addr = s.entry addr := rfl

variable {P : BitVec 10 → Prop}

/-- Setting the end of static memory keeps what lies below. -/
theorem TablesOk.grow {s : State} {e : Word} {frames : List Word} (h : TablesOk P s)
    (hle : ∀ i, P i → s.dir.tables i ≠ null → s.staticEnd ≤ e) :
    TablesOk P { s with staticEnd := e, frames := frames } where
  aligned := h.aligned
  inside i hP hi := Nat.le_trans (h.inside i hP hi) (hle i hP hi)
  injective := h.injective
  entries := h.entries

/-- The processor finds the entry that the kernel wrote. -/
theorem TablesOk.walk_eq {s : State} (h : TablesOk P s) (addr : Word) :
    walk s addr = if (s.entry addr).present = false then none
      else some ⟨(s.entry addr).addr, (s.entry addr).rw, (s.entry addr).user⟩ := by
  by_cases hnull : s.dir.tables (tbIdx addr) = null
  · simp [walk, h.entries, State.entry, hnull, TableEntry.zero]
  · have hdir : s.dir.entries (tbIdx addr) =
        ⟨true, true, true, (s.dir.tables (tbIdx addr) >>> 12).setWidth 20⟩ := by
      rw [h.entries, if_neg hnull]
    have hentry : s.entry addr = s.page ⟨s.dir.tables (tbIdx addr), tbOffset addr⟩ := by
      rw [State.entry, if_neg hnull]
    have hframe : Page.frameAddr ((s.dir.tables (tbIdx addr) >>> 12).setWidth 20) =
        s.dir.tables (tbIdx addr) := by
      have haligned := h.aligned (tbIdx addr)
      have hlt := (s.dir.tables (tbIdx addr)).isLt
      apply Word.ext_toNat
      rw [Page.frameAddr, BitVec.toNat_shiftLeft, BitVec.toNat_setWidth, BitVec.toNat_setWidth,
        BitVec.toNat_ushiftRight, Nat.shiftRight_eq_div_pow, Nat.shiftLeft_eq]
      omega
    simp [walk, hdir, hentry, hframe]

section GetPage

variable {s : State} {addr : Word}

theorem getPage_of_table (h : s.dir.tables (tbIdx addr) ≠ null) :
    getPage addr s = (.ok ⟨s.dir.tables (tbIdx addr), tbOffset addr⟩, s) := by
  rw [getPage, Exec.bind_apply, Exec.read_apply]
  simp only [if_neg h]
  rfl

/-- The state once static memory has a new table for `addr` at its end. -/
def State.addTable (s : State) (addr : Word) : State :=
  let t := getAligned s.staticEnd 12
  { s with
    staticEnd := t + 4096
    page := fun q => if q.table = t then TableEntry.zero else s.page q
    dir := { s.dir with
      tables := fun j => if j = tbIdx addr then t else s.dir.tables j
      entries := fun j =>
        if j = tbIdx addr then ⟨true, true, true, (t >>> 12).setWidth 20⟩ else s.dir.entries j } }

theorem getPage_of_null (h : s.dir.tables (tbIdx addr) = null) :
    getPage addr s =
      (.ok ⟨getAligned s.staticEnd 12, tbOffset addr⟩, s.addTable addr) := by
  rw [getPage, Exec.bind_apply, Exec.read_apply]
  simp only [if_pos h]
  rfl

section NewTable

variable (h : TablesOk P s) (hroom : roundUp s.staticEnd.toNat + 4096 < 2 ^ 32)
  (hpos : 0 < s.staticEnd.toNat)

include hroom in
theorem toNat_newTable : (getAligned s.staticEnd 12).toNat = roundUp s.staticEnd.toNat ∧
    (getAligned s.staticEnd 12 + 4096).toNat = roundUp s.staticEnd.toNat + 4096 := by
  obtain ⟨hle, -, -⟩ := le_roundUp s.staticEnd.toNat
  have ht : (getAligned s.staticEnd 12).toNat = roundUp s.staticEnd.toNat := by
    rw [getAligned_eq_roundUp (by omega), BitVec.toNat_ofNat, Nat.mod_eq_of_lt (by omega)]
  refine ⟨ht, ?_⟩
  rw [BitVec.toNat_add, ht]
  exact Nat.mod_eq_of_lt hroom

include hroom hpos in
theorem newTable_ne_null : getAligned s.staticEnd 12 ≠ null := by
  obtain ⟨hle, -, -⟩ := le_roundUp s.staticEnd.toNat
  intro heq
  have ht := (toNat_newTable hroom).1
  rw [heq] at ht
  change 0 = _ at ht
  omega

include h hroom in
/-- The new table lies behind the others. -/
theorem TablesOk.ne_newTable (i : BitVec 10) (hP : P i) (hi : s.dir.tables i ≠ null) :
    s.dir.tables i ≠ getAligned s.staticEnd 12 := by
  intro heq
  have hinside := h.inside i hP hi
  rw [heq, (toNat_newTable hroom).1] at hinside
  have hle := (le_roundUp s.staticEnd.toNat).1
  omega

include h hroom hpos

theorem TablesOk.addTable (addr : Word) : TablesOk P (s.addTable addr) := by
  obtain ⟨ht, hend⟩ := toNat_newTable hroom
  obtain ⟨hle, -, halign⟩ := le_roundUp s.staticEnd.toNat
  have hne := newTable_ne_null hroom hpos
  constructor
  · intro i
    simp only [State.addTable]
    split
    · rw [ht]
      exact halign
    · exact h.aligned i
  · intro i hP hi
    simp only [State.addTable] at hi ⊢
    rw [hend]
    split
    · rw [ht]
    · next hother =>
        rw [if_neg hother] at hi
        have := h.inside i hP hi
        omega
  · intro i j hPi hPj hi hij
    simp only [State.addTable] at hi hij
    by_cases hia : i = tbIdx addr
    · by_cases hja : j = tbIdx addr
      · rw [hia, hja]
      · rw [if_pos hia, if_neg hja] at hij
        exact absurd hij.symm (h.ne_newTable hroom j hPj (hij ▸ hne))
    · rw [if_neg hia] at hi hij
      by_cases hja : j = tbIdx addr
      · rw [if_pos hja] at hij
        exact absurd hij (h.ne_newTable hroom i hPi hi)
      · rw [if_neg hja] at hij
        exact h.injective i j hPi hPj hi hij
  · intro i
    by_cases hia : i = tbIdx addr
    · simp only [State.addTable, if_pos hia, if_neg hne]
    · simp only [State.addTable, if_neg hia]
      exact h.entries i

/-- A cleared table changes no entry. -/
theorem TablesOk.entry_addTable (hnull : s.dir.tables (tbIdx addr) = null) (a : Word)
    (hP : P (tbIdx a)) : (s.addTable addr).entry a = s.entry a := by
  by_cases ha : tbIdx a = tbIdx addr
  · simp only [State.entry, State.addTable, if_pos ha, if_neg (newTable_ne_null hroom hpos)]
    rw [ha, if_pos hnull, if_pos trivial]
  · simp only [State.entry, State.addTable, if_neg ha]
    split
    · rfl
    · next hsome => rw [if_neg (h.ne_newTable hroom _ hP hsome)]

omit h in
theorem outline_addTable (hnull : s.dir.tables (tbIdx addr) = null) :
    Boot.getPage addr s.outline = (.ok (), (s.addTable addr).outline) := by
  have hnone : s.outline.tables ((addr >>> 22).setWidth 10) = false :=
    decide_eq_false (not_not.mpr hnull)
  rw [Boot.getPage_of_none hnone]
  refine congrArg (Prod.mk (Except.ok ())) (Boot.State.ext rfl rfl ?_)
  funext j
  change (if j = tbIdx addr then true else decide (s.dir.tables j ≠ null)) =
    decide ((s.addTable addr).dir.tables j ≠ null)
  by_cases hj : j = tbIdx addr
  · have hsome : (s.addTable addr).dir.tables j ≠ null := by
      simp only [State.addTable, if_pos hj]
      exact newTable_ne_null hroom hpos
    rw [if_pos hj, decide_eq_true hsome]
  · simp only [State.addTable, if_neg hj]

/-- `get_page` finds a table or adds a cleared one, and the entries stay as they are. -/
theorem getPage_spec (addr : Word) :
    ∃ s', getPage addr s = (.ok ⟨s'.dir.tables (tbIdx addr), tbOffset addr⟩, s') ∧
      TablesOk P s' ∧ s'.dir.tables (tbIdx addr) ≠ null ∧
      Boot.getPage addr s.outline = (.ok (), s'.outline) ∧
      ∀ a, P (tbIdx a) → s'.entry a = s.entry a := by
  by_cases hnull : s.dir.tables (tbIdx addr) = null
  · have htable : (s.addTable addr).dir.tables (tbIdx addr) = getAligned s.staticEnd 12 := by
      simp only [State.addTable, if_pos]
    refine ⟨s.addTable addr, ?_, h.addTable hroom hpos addr, ?_,
      outline_addTable hroom hpos hnull, h.entry_addTable hroom hpos hnull⟩
    · rw [getPage_of_null hnull, htable]
    · rw [htable]
      exact newTable_ne_null hroom hpos
  · refine ⟨s, getPage_of_table hnull, h, hnull, ?_, fun a _ => rfl⟩
    apply Boot.getPage_of_table
    exact decide_eq_true hnull

end NewTable

theorem slot_eq_iff {a b : Word} :
    (tbIdx a = tbIdx b ∧ tbOffset a = tbOffset b) ↔ a.toNat / 4096 = b.toNat / 4096 := by
  rw [← BitVec.toNat_inj, ← BitVec.toNat_inj, Page.toNat_tbIdx, Page.toNat_tbIdx,
    Page.toNat_tbOffset, Page.toNat_tbOffset]
  omega

theorem TablesOk.setEntry (h : TablesOk P s) (p : Slot) (f : TableEntry → TableEntry) :
    TablesOk P (s.setEntry p f) :=
  ⟨h.aligned, h.inside, h.injective, h.entries⟩

/-- Setting the entry for an address changes the entry for its page only. -/
theorem TablesOk.entry_setEntry (h : TablesOk P s) {i : Word} (hPi : P (tbIdx i))
    (hsome : s.dir.tables (tbIdx i) ≠ null) (f : TableEntry → TableEntry) (a : Word)
    (hPa : P (tbIdx a)) :
    (s.setEntry ⟨s.dir.tables (tbIdx i), tbOffset i⟩ f).entry a =
      if a.toNat / 4096 = i.toNat / 4096 then f (s.entry i) else s.entry a := by
  by_cases hnull : s.dir.tables (tbIdx a) = null
  · have hne : ¬ a.toNat / 4096 = i.toNat / 4096 := by
      intro heq
      rw [(slot_eq_iff.mpr heq).1] at hnull
      exact hsome hnull
    rw [if_neg hne, State.entry, State.entry, if_pos hnull]
    exact if_pos hnull
  · have hslot : (⟨s.dir.tables (tbIdx a), tbOffset a⟩ : Slot) =
        ⟨s.dir.tables (tbIdx i), tbOffset i⟩ ↔ a.toNat / 4096 = i.toNat / 4096 := by
      rw [← slot_eq_iff, Slot.mk.injEq]
      exact and_congr_left' ⟨h.injective _ _ hPa hPi hnull, congrArg _⟩
    simp only [State.entry, State.setEntry, if_neg hnull, if_neg hsome, hslot]

/-- The body of the loop changes one entry. -/
theorem mapSelf_spec (h : TablesOk P s) (hroom : roundUp s.staticEnd.toNat + 4096 < 2 ^ 32)
    (hpos : 0 < s.staticEnd.toNat) (i : Word) (hP : P (tbIdx i)) :
    ∃ s', mapSelf i s = (.ok (), s') ∧ TablesOk P s' ∧
      Boot.getPage i s.outline = (.ok (), s'.outline) ∧
      ∀ a, P (tbIdx a) → s'.entry a =
        if a.toNat / 4096 = i.toNat / 4096 then selfEntry i (s.entry i) else s.entry a := by
  obtain ⟨t, hrun, hok, hsome, hout, hentry⟩ := getPage_spec h hroom hpos i
  refine ⟨_, Exec.bind_ok hrun, hok.setEntry _ _, hout, ?_⟩
  intro a ha
  rw [← hentry a ha, ← hentry i hP]
  exact hok.entry_setEntry hP hsome (selfEntry i) a ha

end GetPage

/-! ## The loops -/

/-- A loop over pages ends when each page leads from one stage to the next, and the bound
lies above the page at each stage but the last. -/
theorem forPages_returns {stop : State → Word} {body : Word → Prog Unit} (I : Nat → State → Prop)
    {n : Nat} {i : Word}
    (hstep : ∀ k < n, ∀ s, I k s → i + BitVec.ofNat 32 (4096 * k) < stop s ∧
      ∃ s', body (i + BitVec.ofNat 32 (4096 * k)) s = (.ok (), s') ∧ I (k + 1) s')
    (hstop : ∀ s, I n s → ¬ i + BitVec.ofNat 32 (4096 * n) < stop s)
    {fuel : Nat} (hfuel : n < fuel) {s : State} (hs : I 0 s) :
    ∃ s', forPages stop body fuel i s = (.ok (), s') ∧ I n s' := by
  suffices h : ∀ m k, k + m = n → ∀ fuel, m < fuel → ∀ s, I k s →
      ∃ s', forPages stop body fuel (i + BitVec.ofNat 32 (4096 * k)) s = (.ok (), s') ∧ I n s' by
    simpa using h n 0 (Nat.zero_add n) fuel hfuel s hs
  intro m
  induction m with
  | zero =>
      intro k hk fuel hm s hs
      obtain rfl : k = n := hk
      obtain ⟨fuel, rfl⟩ := Nat.exists_eq_add_one_of_ne_zero (Nat.ne_of_gt hm)
      refine ⟨s, ?_, hs⟩
      rw [forPages, Exec.bind_apply, Exec.read_apply]
      exact congrFun (if_neg (hstop s hs)) s
  | succ m ih =>
      intro k hk fuel hm s hs
      obtain ⟨fuel, rfl⟩ := Nat.exists_eq_add_one_of_ne_zero (Nat.ne_of_gt (Nat.zero_lt_of_lt hm))
      obtain ⟨hlt, s₁, hbody, hs₁⟩ := hstep k (by omega) s hs
      obtain ⟨s', hrest, hs'⟩ := ih (k + 1) (by omega) fuel (by omega) s₁ hs₁
      refine ⟨s', ?_, hs'⟩
      have hnext : i + BitVec.ofNat 32 (4096 * k) + 0x1000 =
          i + BitVec.ofNat 32 (4096 * (k + 1)) := by
        rw [Nat.mul_succ, BitVec.ofNat_add, BitVec.add_assoc]
        rfl
      rw [forPages, Exec.bind_apply, Exec.read_apply]
      simp only [if_pos hlt]
      rw [Exec.bind_ok hbody, hnext]
      exact hrest

/-- A state with sound tables, of which the outline and the entries are known. -/
structure Stage (P : BitVec 10 → Prop) (o : Boot.State) (f : Word → TableEntry) (s : State) :
    Prop where
  tables : TablesOk P s
  outline : s.outline = o
  entry (a : Word) : P (tbIdx a) → s.entry a = f a

section Stage

variable {o : Boot.State} {f : Word → TableEntry} {s : State}

theorem Stage.staticEnd (h : Stage P o f s) : s.staticEnd = o.staticEnd :=
  congrArg Boot.State.staticEnd h.outline

theorem Stage.getPage (h : Stage P o f s) (hroom : roundUp o.staticEnd.toNat + 4096 < 2 ^ 32)
    (hpos : 0 < o.staticEnd.toNat) {addr : Word} {o' : Boot.State}
    (hout : Boot.getPage addr o = (.ok (), o')) :
    ∃ s', (do let _ ← Identity.getPage addr) s = (.ok (), s') ∧ Stage P o' f s' := by
  rw [← h.staticEnd] at hroom hpos
  obtain ⟨s', hrun, hok, -, hout', hentry⟩ := getPage_spec h.tables hroom hpos addr
  rw [h.outline, hout] at hout'
  refine ⟨s', Exec.bind_ok hrun, hok, (congrArg Prod.snd hout').symm, ?_⟩
  intro a ha
  rw [hentry a ha, h.entry a ha]

theorem Stage.mapSelf (h : Stage P o f s) (hroom : roundUp o.staticEnd.toNat + 4096 < 2 ^ 32)
    (hpos : 0 < o.staticEnd.toNat) {i : Word} (hP : P (tbIdx i)) {o' : Boot.State}
    (hout : Boot.getPage i o = (.ok (), o')) :
    ∃ s', Identity.mapSelf i s = (.ok (), s') ∧
      Stage P o' (fun a => if a.toNat / 4096 = i.toNat / 4096 then selfEntry i (f i) else f a) s' := by
  rw [← h.staticEnd] at hroom hpos
  obtain ⟨s', hrun, hok, hout', hentry⟩ := mapSelf_spec h.tables hroom hpos i hP
  rw [h.outline, hout] at hout'
  refine ⟨s', hrun, hok, (congrArg Prod.snd hout').symm, ?_⟩
  intro a ha
  rw [hentry a ha, h.entry i hP, h.entry a ha]

/-- The tables of the kernel heap are put in place, and every entry stays as it is. -/
theorem Stage.heapTables (h : Stage P o f s) (hpos : 0 < o.staticEnd.toNat)
    (hfit : o.staticEnd.toNat + 0x50000 ≤ 2 ^ 32) (hnone : o.tables = fun _ => false) :
    ∃ s', forPages (fun _ => kernelHeapEnd) (fun i => do let _ ← Identity.getPage i) loopBound
        kernelHeapBegin s = (.ok (), s') ∧ Stage P (withHeap o) f s' := by
  rw [← heapState_full]
  apply forPages_returns (fun k => Stage P (heapState o k) f)
  · intro k hk t ht
    rw [heapPage]
    refine ⟨heapPage_lt hk, ht.getPage (heapState_room hfit hk) ?_ (getPage_heapState hfit hk)⟩
    exact heapState_pos hpos hfit (Nat.le_of_lt hk)
  · intro t ht
    decide
  · rw [loopBound]
    decide
  · rwa [heapState_zero hnone]

/-- The pages of static memory below `n` are mapped to themselves. -/
def selfMap (n : Nat) (a : Word) : TableEntry :=
  if 0x1000 ≤ a.toNat ∧ a.toNat < n then selfEntry a TableEntry.zero else TableEntry.zero

theorem selfMap_first : selfMap 0x1000 = fun _ => TableEntry.zero := by
  funext a
  rw [selfMap, if_neg (by omega)]

theorem selfMap_succ {k : Nat} (hk : 4096 * (k + 1) < 2 ^ 32) {i : Word}
    (hi : i = BitVec.ofNat 32 (4096 * (k + 1))) :
    (fun a => if a.toNat / 4096 = i.toNat / 4096 then selfEntry i (selfMap (4096 * (k + 1)) i)
      else selfMap (4096 * (k + 1)) a) = selfMap (4096 * (k + 1 + 1)) := by
  have hval : i.toNat = 4096 * (k + 1) := by
    rw [hi, BitVec.toNat_ofNat, Nat.mod_eq_of_lt hk]
  funext a
  split
  · next heq =>
      have hframe : (i >>> 12).setWidth 20 = ((a >>> 12).setWidth 20 : Frame) := by
        apply BitVec.eq_of_toNat_eq
        rw [BitVec.toNat_setWidth, BitVec.toNat_setWidth, BitVec.toNat_ushiftRight,
          BitVec.toNat_ushiftRight, Nat.shiftRight_eq_div_pow, Nat.shiftRight_eq_div_pow]
        exact congrArg (· % 2 ^ 20) heq.symm
      rw [selfMap, selfMap, if_neg (by omega), if_pos (by omega), selfEntry, selfEntry, hframe]
  · next hne =>
      have hiff : (0x1000 ≤ a.toNat ∧ a.toNat < 4096 * (k + 1)) ↔
          (0x1000 ≤ a.toNat ∧ a.toNat < 4096 * (k + 1 + 1)) := by
        omega
      rw [selfMap, selfMap, if_congr hiff rfl rfl]

/-- The loop over static memory reaches the end of static memory, which it moves. -/
theorem Stage.lowTables (h : Stage P o (fun _ => TableEntry.zero) s)
    (hP : ∀ i : BitVec 10, i.toNat < 959 → P i) (hlow : 0x1000 < o.staticEnd.toNat)
    (hfit : lowEnd o.staticEnd.toNat ≤ kernelHeapBegin.toNat)
    (hnone : ∀ j, j.toNat < 959 → o.tables j = false) :
    ∃ s', forPages (·.staticEnd) Identity.mapSelf loopBound 0x1000 s = (.ok (), s') ∧
      s'.staticEnd.toNat = lowEnd o.staticEnd.toNat ∧
      Stage P (lowState o (lowPages o.staticEnd.toNat)) (selfMap (lowEnd o.staticEnd.toNat)) s' := by
  obtain ⟨hend, -, -, hle⟩ := lowPages_facts hlow hfit
  have hstop := lowState_stop hlow hfit
  suffices hloop : ∃ s', forPages (·.staticEnd) Identity.mapSelf loopBound 0x1000 s = (.ok (), s') ∧
      Stage P (lowState o (lowPages o.staticEnd.toNat))
        (selfMap (4096 * (lowPages o.staticEnd.toNat + 1))) s' by
    obtain ⟨s', hrun, hs'⟩ := hloop
    rw [hend] at hs'
    exact ⟨s', hrun, hs'.staticEnd ▸ hstop, hs'⟩
  apply forPages_returns (fun k => Stage P (lowState o k) (selfMap (4096 * (k + 1))))
  · intro k hk t ht
    obtain ⟨hlt, hgrow, hbound⟩ := lowState_step hlow hfit hk
    have hroom := lowState_room hlow hfit hk
    have hpage := Nat.lt_trans hlt (lowState o k).staticEnd.isLt
    have hpos := Nat.lt_of_le_of_lt (Nat.zero_le _) hlt
    rw [page_succ]
    constructor
    · rw [BitVec.lt_def, BitVec.toNat_ofNat, Nat.mod_eq_of_lt hpage, ht.staticEnd]
      exact hlt
    · have hidx : P (tbIdx (BitVec.ofNat 32 (4096 * (k + 1)))) := by
        apply hP
        rw [Page.toNat_tbIdx, BitVec.toNat_ofNat, Nat.mod_eq_of_lt hpage]
        omega
      obtain ⟨t', hrun, ht'⟩ := ht.mapSelf hroom hpos hidx
        (getPage_lowState (Nat.le_of_lt hgrow) hbound hnone)
      rw [selfMap_succ hpage rfl] at ht'
      exact ⟨t', hrun, ht'⟩
  · intro t ht
    rw [page_succ, BitVec.lt_def, ht.staticEnd, hstop, BitVec.toNat_ofNat, hend]
    rw [Nat.mod_eq_of_lt (Nat.lt_of_le_of_lt hfit kernelHeapBegin.isLt)]
    exact Nat.lt_irrefl _
  · exact Nat.lt_of_le_of_lt (Nat.le_of_succ_le hle) (by decide)
  · rw [lowState_zero, Nat.zero_add, Nat.mul_one, selfMap_first]
    exact h

theorem Stage.setNtable (h : Stage P o f s) (n : Word) :
    Stage P o f { s with kernelLowNtable := n } :=
  ⟨⟨h.tables.aligned, h.tables.inside, h.tables.injective, h.tables.entries⟩, h.outline, h.entry⟩

/-- What the processor sees once static memory is mapped to itself. -/
theorem Stage.identityMapped (h : Stage P o (selfMap s.staticEnd.toNat) s)
    (hP : ∀ i : BitVec 10, i.toNat < 959 → P i) : IdentityMapped s := by
  intro addr haddr
  have hidx : P (tbIdx addr) := by
    apply hP
    have hlt : addr.toNat < 0xEFC00000 := haddr
    rw [Page.toNat_tbIdx]
    omega
  rw [h.tables.walk_eq, h.entry addr hidx]
  by_cases hin : 0x1000 ≤ addr ∧ addr < s.staticEnd
  · have hmap : selfMap s.staticEnd.toNat addr = selfEntry addr TableEntry.zero :=
      if_pos ⟨hin.1, hin.2⟩
    rw [if_pos hin, hmap]
    rfl
  · have hmap : selfMap s.staticEnd.toNat addr = TableEntry.zero :=
      if_neg fun hle => hin ⟨hle.1, hle.2⟩
    rw [if_neg hin, hmap]
    rfl

end Stage

/-! ## Static memory is mapped to itself -/

theorem onOutline_ok {α : Type} {x : Boot.Prog α} {s : State} {a : α} {o : Boot.State}
    (h : x s.outline = (.ok a, o)) :
    onOutline x s = (.ok a, { s with staticEnd := o.staticEnd, frames := o.frames }) := by
  rw [onOutline, h]

theorem onOutline_dir {α : Type} {x : Boot.Prog α} {s t : State} {a : α}
    (h : onOutline x s = (.ok a, t)) : t.dir = s.dir := by
  rw [onOutline] at h
  exact (congrArg (·.2.dir) h).symm

/-- `init_frames` leaves a cleared directory. -/
theorem loadMap_dir {m : Multiboot} {s t : State} (h : loadMap m s = (.ok (), t)) :
    t.dir = Directory.zero := by
  obtain ⟨_, s₁, -, h⟩ := Exec.bind_eq_ok h
  obtain ⟨d, s₂, -, h⟩ := Exec.bind_eq_ok h
  obtain ⟨_, s₃, hclear, h⟩ := Exec.bind_eq_ok h
  rw [onOutline_dir h]
  exact (congrArg (·.2.dir) hclear).symm

theorem stage_of_cleared {s : State} (h : s.dir = Directory.zero) :
    Stage P s.outline (fun _ => TableEntry.zero) s := by
  have hnull : ∀ i, s.dir.tables i = null := fun i => by rw [h, Directory.zero]
  refine ⟨⟨?_, ?_, ?_, ?_⟩, rfl, ?_⟩
  · intro i
    rw [hnull]
    rfl
  · intro i _ hi
    exact absurd (hnull i) hi
  · intro i j _ _ hi
    exact absurd (hnull i) hi
  · intro i
    rw [if_pos (hnull i), h, Directory.zero]
  · intro a _
    rw [State.entry, if_pos (hnull _)]

/-- The end of static memory when `n` frames are counted: `new uint32_t[n]` takes `4 * n` bytes
of a 32-bit address space. -/
def staticLimit (s : State) (n : Word) : Nat := lowEnd (refCntEnd s.outline n).toNat

/-- Static memory stays between its first page and the kernel heap. -/
structure BelowHeap (s : State) (n : Word) : Prop where
  first : 0x1000 < s.staticEnd.toNat
  heapTables : roundUp s.staticEnd.toNat + 0x40000 ≤ kernelHeapBegin.toNat
  refCnt : 0x1000 < (refCntEnd s.outline n).toNat
  limit : staticLimit s n ≤ kernelHeapBegin.toNat

/-- `Page::init` maps static memory, and ends at the limit. What is known of the tables of the
heap, if they count as well, needs that the reference counts lie behind them. -/
theorem mapStatic_spec {s : State} {n : Word} (h : BelowHeap s n)
    (hs : Stage P s.outline (fun _ => TableEntry.zero) s)
    (hnone : s.outline.tables = fun _ => false) (hcnt : refCntLength s.frames = some n)
    (hP : ∀ i : BitVec 10, i.toNat < 959 → P i)
    (hcounts : ∀ i : BitVec 10, P i → 959 ≤ i.toNat →
      (withHeap s.outline).staticEnd ≤ refCntEnd s.outline n) :
    ∃ b, mapStatic s = (.ok (), b) ∧ b.staticEnd.toNat = staticLimit s n ∧
      Stage P (lowState { withHeap s.outline with staticEnd := refCntEnd s.outline n }
        (lowPages (refCntEnd s.outline n).toNat)) (selfMap b.staticEnd.toNat) b ∧
      b.kernelLowNtable = ((b.staticEnd - 1) >>> 22) + 1 := by
  have hroom : s.outline.staticEnd.toNat + 0x50000 ≤ 2 ^ 32 := by
    have hle := (le_roundUp s.staticEnd.toNat).1
    have hheap : _ ≤ 0xEFC00000 := h.heapTables
    change s.staticEnd.toNat + 0x50000 ≤ _
    omega
  have hfirst : 0 < s.outline.staticEnd.toNat := Nat.zero_lt_of_lt h.first
  obtain ⟨s₁, hheap, hs₁⟩ := hs.heapTables hfirst hroom hnone
  -- the reference counts
  have hframes : s₁.outline.frames = s.frames := by
    rw [hs₁.outline, withHeap]
    rfl
  have hend₁ : s₁.outline.staticEnd + 4 * n = refCntEnd s.outline n := by
    rw [hs₁.outline, refCntEnd]
  have hcount : newRefCnt s₁.outline =
      (.ok (), { s₁.outline with staticEnd := s₁.outline.staticEnd + 4 * n }) :=
    newRefCnt_of_some (by rw [hframes]; exact hcnt)
  rw [hend₁] at hcount
  have hgrow : ∀ i, P i → s₁.dir.tables i ≠ null → s₁.staticEnd ≤ refCntEnd s.outline n := by
    intro i hPi hi
    have htables : decide (s₁.dir.tables i ≠ null) = (withHeap s.outline).tables i :=
      congrFun (congrArg Boot.State.tables hs₁.outline) i
    rw [decide_eq_true hi, withHeap] at htables
    rw [hs₁.staticEnd]
    exact hcounts i hPi (of_decide_eq_true htables.symm).1
  -- the tables of static memory
  have hs₂ : Stage P { withHeap s.outline with staticEnd := refCntEnd s.outline n }
      (fun _ => TableEntry.zero)
      { s₁ with staticEnd := refCntEnd s.outline n, frames := s₁.outline.frames } := by
    refine ⟨hs₁.tables.grow hgrow, ?_, fun a ha => (entry_setEnd _ _ _ a).trans (hs₁.entry a ha)⟩
    rw [← hs₁.outline]
    rfl
  have hlimit := h.limit
  rw [staticLimit] at hlimit
  obtain ⟨s₂, hloop, hlast, hs₂⟩ := hs₂.lowTables hP h.refCnt hlimit
    (by intro j hj; rw [withHeap]; exact decide_eq_false (by omega))
  rw [← hlast] at hs₂
  refine ⟨{ s₂ with kernelLowNtable := ((s₂.staticEnd - 1) >>> 22) + 1 }, ?_, ?_,
    hs₂.setNtable _, rfl⟩
  swap
  · rw [staticLimit]
    exact hlast
  rw [mapStatic, Exec.bind_ok hheap, Exec.bind_ok (onOutline_ok hcount), Exec.bind_ok hloop]
  rfl

/-- The number of tables that `kernel_low_ntable` counts. -/
theorem toNat_ntable {e : Word} (hpos : 0 < e.toNat) :
    (((e - 1) >>> 22) + 1).toNat = (e.toNat - 1) / 2 ^ 22 + 1 := by
  have hlt := e.isLt
  have hone : (1 : Word).toNat = 1 := rfl
  have hle : (1 : Word) ≤ e := by
    rw [BitVec.le_def]
    exact hpos
  rw [BitVec.toNat_add, BitVec.toNat_ushiftRight, BitVec.toNat_sub_of_le hle, hone,
    Nat.shiftRight_eq_div_pow]
  exact Nat.mod_eq_of_lt (by omega)

/-- `kernel_low_ntable` counts the tables below the beginning of user memory. -/
theorem userMem_of_ntable {e : Word} (hpos : 0 < e.toNat) (hle : e.toNat ≤ kernelHeapBegin.toNat) :
    (((e - 1) >>> 22) + 1).toNat * 2 ^ 22 = (getAligned e 22).toNat ∧ e ≤ getAligned e 22 := by
  have hbound : e.toNat ≤ 0xEFC00000 := hle
  have hne : e ≠ 0 := by
    rintro rfl
    exact Nat.lt_irrefl 0 hpos
  have hcount := toNat_ntable hpos
  have halign : (getAligned e 22).toNat = ((e.toNat - 1) / 2 ^ 22 + 1) * 2 ^ 22 := by
    rw [getAligned, if_neg hne, BitVec.toNat_shiftLeft, hcount, Nat.shiftLeft_eq]
    exact Nat.mod_eq_of_lt (by omega)
  constructor
  · rw [hcount, halign]
  · rw [BitVec.le_def, halign]
    omega

/-- The end of `Page::init` changes neither the map nor static memory. -/
theorem finish_eq {b c : State} (h : finish b = (.ok (), c)) :
    ∃ frames, c = { b with
      frames := frames
      dir := { b.dir with phyaddr := b.currentPageDir + 4096 }
      userMemLow := getAligned b.staticEnd 22
      userMemHigh := kernelHeapBegin - 1 } := by
  rw [finish, Exec.bind_apply, Exec.read_apply] at h
  obtain ⟨_, b₁, hread, h⟩ := Exec.bind_eq_ok h
  cases hread
  obtain ⟨frames, b₂, hdrop, h⟩ := Exec.bind_eq_ok h
  obtain ⟨-, rfl⟩ := Prod.mk.inj hdrop
  exact ⟨frames, (congrArg Prod.snd h).symm⟩

/-- The static data of the kernel is mapped to itself for the kernel alone, the tables that map
it included, nothing else below the kernel heap is mapped, and user memory begins where the
tables of the kernel end. -/
theorem mapStatic_identity {m : Multiboot} {garbage s : State} {n : Word}
    (hrun : loadMap m (start m garbage) = (.ok (), s)) (hcnt : refCntLength s.frames = some n)
    (hbelow : BelowHeap s n) :
    ∃ b, mapStatic s = (.ok (), b) ∧ b.staticEnd.toNat = staticLimit s n ∧ IdentityMapped b ∧
      (∀ i : BitVec 10, i.toNat < Page.heapBeginIdx → b.dir.tables i ≠ null →
        0x1000 ≤ b.dir.tables i ∧ (b.dir.tables i).toNat + 4096 ≤ b.staticEnd.toNat) ∧
      ∀ c, finish b = (.ok (), c) → IdentityMapped c ∧ c.staticEnd = b.staticEnd ∧
        c.kernelLowNtable.toNat * 2 ^ 22 = c.userMemLow.toNat ∧ c.staticEnd ≤ c.userMemLow := by
  have hdir := loadMap_dir hrun
  have hnone : s.outline.tables = fun _ => false := by
    funext i
    simp [State.outline, hdir, Directory.zero]
  have hlow : ∀ i : BitVec 10, i.toNat < 959 → i.toNat < 959 := fun _ h => h
  obtain ⟨b, hmap, hend, hb, hntable⟩ := mapStatic_spec (P := fun i => i.toNat < 959) hbelow
    (stage_of_cleared hdir) hnone hcnt hlow (fun i hlt hle => absurd hlt (Nat.not_lt.mpr hle))
  have hposb : 0 < b.staticEnd.toNat := by
    rw [hend, staticLimit, lowEnd, lowTables]
    omega
  refine ⟨b, hmap, hend, hb.identityMapped hlow, ?_, ?_⟩
  · intro i hidx hi
    rw [Page.heapBeginIdx_eq] at hidx
    refine ⟨?_, hb.tables.inside i hidx hi⟩
    have haligned := hb.tables.aligned i
    have hne : (b.dir.tables i).toNat ≠ 0 := fun h => hi (BitVec.eq_of_toNat_eq h)
    rw [BitVec.le_def]
    change 0x1000 ≤ (b.dir.tables i).toNat
    omega
  · intro c hc
    obtain ⟨frames, rfl⟩ := finish_eq hc
    obtain ⟨hntable', hle⟩ := userMem_of_ntable hposb (hend ▸ hbelow.limit)
    refine ⟨hb.identityMapped hlow, rfl, ?_, hle⟩
    rw [← hntable']
    exact congrArg (·.toNat * 2 ^ 22) hntable

/-! ## The two models of `Page::init` agree -/

/-- A step that leaves the directory alone is the same in both models. -/
theorem onOutline_refines {α : Type} {x : Boot.Prog α} {s : State} {o : Boot.State} {a : α}
    (h : x s.outline = (.ok a, o)) (htables : o.tables = s.outline.tables) :
    ∃ t, onOutline x s = (.ok a, t) ∧ t.outline = o ∧ t.dir = s.dir :=
  ⟨_, onOutline_ok h, Boot.State.ext rfl rfl htables.symm, rfl⟩

theorem initFrames_tables (mmap : List MmapEntry) {o o' : Boot.State}
    (h : initFrames mmap o = (.ok (), o')) : o'.tables = o.tables := by
  have hlift : ∀ {α : Type} (x : Except Panic α),
      Exec.Keeps (fun t : Boot.State => t.tables = o.tables) (lift x) := fun x s hs => hs
  have hkeeps : Exec.Keeps (fun t : Boot.State => t.tables = o.tables) (initFrames mmap) :=
    Exec.keeps_bind (hlift _) fun size =>
      Exec.keeps_bind (fun s hs => hs) fun _ =>
        Exec.keeps_bind (Exec.keeps_read _) fun limit =>
          Exec.keeps_bind (hlift _) fun frames => Exec.keeps_modify fun s hs => hs
  have hend := hkeeps o rfl
  rwa [h] at hend

theorem preserveModule_tables {modEnd : Option Word} {o o' : Boot.State}
    (h : preserveModule modEnd o = (.ok (), o')) : o'.tables = o.tables := by
  cases modEnd with
  | none =>
      cases h
      rfl
  | some e =>
      simp only [preserveModule, preserveMem, Exec.modify_apply] at h
      split at h <;> cases h <;> rfl

/-- Both models fill the stack of frames in the same way. -/
theorem loadMap_refines {m : Multiboot} {s : State} {o : Boot.State}
    (hdir : s.dir = Directory.zero) (h : Boot.loadMap m s.outline = (.ok (), o)) :
    ∃ t, loadMap m s = (.ok (), t) ∧ t.outline = o := by
  obtain ⟨_, o₁, hmodule, h⟩ := Exec.bind_eq_ok h
  obtain ⟨d, o₂, hdirectory, hframes⟩ := Exec.bind_eq_ok h
  obtain ⟨s₁, hrun₁, rfl, hdir₁⟩ := onOutline_refines hmodule (preserveModule_tables hmodule)
  have htables : o₂.tables = s₁.outline.tables := by
    rw [kmalloc_apply] at hdirectory
    exact (congrArg (·.2.tables) hdirectory).symm
  obtain ⟨s₂, hrun₂, rfl, hdir₂⟩ := onOutline_refines hdirectory htables
  have hclear : ({ s₂ with currentPageDir := d, dir := Directory.zero } : State).outline =
      s₂.outline := by
    rw [← hdir, ← hdir₁, ← hdir₂]
    rfl
  rw [← hclear] at hframes
  obtain ⟨t, hrun₃, hout, -⟩ := onOutline_refines hframes (initFrames_tables _ hframes)
  refine ⟨t, ?_, hout⟩
  rw [loadMap, sizeofDirectory, Exec.bind_ok hrun₁, Exec.bind_ok hrun₂]
  exact hrun₃

/-- A kernel that starts with cleared memory. -/
def cleared : State := ⟨0, [], 0, Directory.zero, fun _ => TableEntry.zero, 0, 0, 0⟩

theorem start_cleared (m : Multiboot) : (start m cleared).outline = Boot.start m := by
  refine Boot.State.ext rfl rfl ?_
  funext i
  simp [State.outline, start, cleared, Directory.zero, Boot.start]

/-- With a hole in the memory the counted frames are `-0x101`, and the end of static memory
moves down before the table of static memory is put there. -/
theorem mapStatic_identity_twoRegions :
    ∃ s b, loadMap twoRegions (start twoRegions cleared) = (.ok (), s) ∧
      mapStatic s = (.ok (), b) ∧ b.staticEnd.toNat = 0x265000 ∧ IdentityMapped b := by
  obtain ⟨s, hrun, hs⟩ := loadMap_refines (s := start twoRegions cleared) rfl
    (start_cleared twoRegions ▸ twoRegions_loadMap)
  have hframes : s.frames = twoRegions.stack := congrArg Boot.State.frames hs
  have hend : s.staticEnd = twoRegions.frameArrayEnd := congrArg Boot.State.staticEnd hs
  have hcnt : refCntEnd s.outline (0xFFE - 0x1100 + 1) = 0x263BFC := by
    rw [refCntEnd, withHeap]
    change BitVec.ofNat 32 (roundUp s.staticEnd.toNat + 0x40000) + _ = _
    rw [hend]
    decide
  have hlimit : staticLimit s (0xFFE - 0x1100 + 1) = 0x265000 := by
    rw [staticLimit, hcnt]
    decide
  have hbelow : BelowHeap s (0xFFE - 0x1100 + 1) := by
    constructor
    · rw [hend]
      decide
    · rw [hend]
      decide
    · rw [hcnt]
      decide
    · rw [hlimit]
      decide
  obtain ⟨b, hmap, hlast, hb, -⟩ := mapStatic_identity hrun
    (by rw [hframes, twoRegions_refCntLength]) hbelow
  exact ⟨s, b, hrun, hmap, hlast.trans hlimit, hb⟩

end Jkos.Boot.Identity
