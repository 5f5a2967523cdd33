import Jkos.Page.Shared

/-!
# Tables in memory

`Kernel` keeps the entries of the tables apart from the frames. In the machine an entry is a
word of the page of its table: the code finds it at its address, through the pages of the
heap, and the processor in the frame that the directory names. The functions on entries do
the same in both as long as they leave the pages of the tables alone. A table whose page is
freed is lost, with everything that its entries stand for.
-/

namespace Jkos.Page

open Exec Kheap

/-! ## Words -/

/-- The bits of an entry. Those that no function reads are clear. -/
def TableEntry.encode (e : TableEntry) : Word :=
  e.addr ++ e.allocFill ++ BitVec.ofBool e.allocable ++ (0 : BitVec 6) ++ BitVec.ofBool e.user ++
    BitVec.ofBool e.rw ++ BitVec.ofBool e.present

def TableEntry.decode (w : Word) : TableEntry where
  present := w.getLsbD 0
  rw := w.getLsbD 1
  user := w.getLsbD 2
  allocable := w.getLsbD 9
  allocFill := w.extractLsb' 10 2
  addr := w.extractLsb' 12 20

/-- The memory subsystem with its entries in memory. The variables and the directories are
those of `kernel`; its entries and its memory are not used. -/
structure Ram where
  kernel : Kernel
  word : Frame → BitVec 10 → Word

abbrev RamProg := Exec Ram Fault

namespace Ram

def setWord (m : Ram) (f : Frame) (i : BitVec 10) (w : Word) : Ram :=
  { m with word := fun g j => if g = f ∧ j = i then w else m.word g j }

/-- Change the variables. -/
def modifyVars (f : Kernel → Kernel) : RamProg Unit :=
  modify fun m => { m with kernel := f m.kernel }

/-- The walk of the processor through the current directory. -/
def walk (m : Ram) (addr : Word) (write user : Bool) : Except Word Frame :=
  let de := (m.kernel.dir m.kernel.currentPageDir).entries (tbIdx addr)
  let e := TableEntry.decode (m.word de.addr (tbOffset addr))
  if de.present = false ∨ e.present = false then .error (errCodeOf false write user)
  else if (user = true ∧ e.user = false) ∨ (write = true ∧ e.rw = false) then
    .error (errCodeOf true write user)
  else .ok e.addr

/-- The frame that an access of kernel code goes to. A fault there is not served but ends the
call. -/
def reach (addr : Word) (write : Bool) : RamProg Frame := fun m =>
  match m.walk addr write false with
  | .ok f => (.ok f, m)
  | .error errCode => (.error (.pageFault addr errCode), m)

/-- Read an entry. -/
def entry (p : Slot) : RamProg TableEntry := do
  let f ← reach p.table false
  read fun m => .decode (m.word f p.idx)

/-- Update an entry in place. -/
def setEntry (p : Slot) (f : TableEntry → TableEntry) : RamProg Unit := do
  let b ← reach p.table true
  modify fun m => m.setWord b p.idx (f (.decode (m.word b p.idx))).encode

/-- `Table_entry_t::alloc`. -/
def alloc (p : Slot) (user writable : Bool) : RamProg Unit := do
  setEntry p ({ · with rw := writable, user := user })
  if (← entry p).addr = 0 then
    match ← read (·.kernel.frames) with
    | [] => throw .noFreeFrame
    | f :: frames =>
      modifyVars ({ · with frames := frames })
      setEntry p ({ · with addr := f })
      modifyVars (·.setRef f 1)
      setEntry p ({ · with allocable := true, present := true })
  else pure ()

/-- `Table_entry_t::fill_uint32`. -/
def fillUint32 (p : Slot) (val : Word) : RamProg Unit := do
  let e ← entry p
  setEntry (← read (·.kernel.emptyPage0)) ({ · with addr := e.addr })
  let f ← reach (← read (·.kernel.emptyPage0Addr)) true
  modify fun m => { m with word := fun g => if g = f then fun _ => val else m.word g }

/-- `Table_entry_t::lazy_alloc`. -/
def lazyAlloc (p : Slot) (user writable fillZero : Bool) : RamProg Unit := do
  setEntry p ({ · with rw := writable, user := user })
  if (← entry p).addr = 0 then
    setEntry p ({ · with allocable := true, allocFill := if fillZero then 1 else 0 })
  else if fillZero then fillUint32 p 0
  else pure ()

/-- `Table_entry_t::free`. -/
def free (p : Slot) : RamProg Unit := do
  let e ← entry p
  if e.addr = 0 then pure ()
  else
    modifyVars fun s => s.setRef e.addr (s.frameRefCnt e.addr - 1)
    if (← read (·.kernel.frameRefCnt e.addr)) = 0 then
      modifyVars fun s => { s with frames := e.addr :: s.frames }
    setEntry p ({ · with addr := 0, present := false, allocable := false })

/-- `Directory_t::free_interval`. -/
def freeInterval (d start stop : Word) : RamProg Unit :=
  interval (fun i => do
    match ← read (lookup ·.kernel d i) with
    | none => pure ()
    | some p => if (← entry p).present = true then free p else pure ()) start stop

/-- `copy_page_physical`. -/
def copyPagePhysical (dest src : Word) : RamProg Unit := do
  setEntry (← read (·.kernel.emptyPage0)) ({ · with addr := (src >>> 12).setWidth 20 })
  setEntry (← read (·.kernel.emptyPage1)) ({ · with addr := (dest >>> 12).setWidth 20 })
  let f ← reach (← read (·.kernel.emptyPage0Addr)) false
  let g ← reach (← read (·.kernel.emptyPage1Addr)) true
  modify fun m => { m with word := fun h => if h = g then m.word f else m.word h }

/-- `page_fault`. -/
def pageFault (addr errCode eip : Word) : RamProg Unit := do
  match ← read (fun m => lookup m.kernel m.kernel.currentPageDir addr) with
  | none => throw (.pageFault addr errCode)
  | some p =>
    let e ← entry p
    let codeEnd ← read (·.kernel.kernelCodeEnd)
    if e.allocable = false ∨ (e.user = false ∧ eip ≥ codeEnd) then throw (.pageFault addr errCode)
    else if errCode &&& 1 = 0 then
      alloc p e.user e.rw
      if (← entry p).allocFill ≠ 0 then fillUint32 p 0 else pure ()
    else if errCode &&& 2 ≠ 0 ∧ e.user = true then
      let n ← read (·.kernel.frameRefCnt e.addr)
      if e.addr = 0 ∨ n = 0 then throw (.pageFault addr errCode)
      else if n = 1 then setEntry p ({ · with rw := true })
      else
        modifyVars (·.setRef e.addr (n - 1))
        setEntry p ({ · with addr := 0 })
        alloc p true true
        copyPagePhysical (frameAddr (← entry p).addr) (frameAddr e.addr)
    else throw (.pageFault addr errCode)

end Ram

theorem TableEntry.decode_encode (e : TableEntry) : decode e.encode = e := by
  obtain ⟨present, rw, user, allocable, allocFill, addr⟩ := e
  simp only [decode, encode, TableEntry.mk.injEq, BitVec.getLsbD_append]
  refine ⟨?_, ?_, ?_, ?_, ?_, ?_⟩
  · simp
  · simp
  · simp
  · simp
  · ext i hi
    have hskip : 10 + i - 1 - 1 - 1 - 6 - 1 = i := by omega
    simp only [BitVec.getElem_extractLsb', BitVec.getLsbD_append, hskip]
    iterate 5 rw [if_neg (by omega)]
    rw [if_pos hi, BitVec.getLsbD_eq_getElem hi]
  · ext i hi
    have hskip : 12 + i - 1 - 1 - 1 - 6 - 1 - 2 = i := by omega
    simp only [BitVec.getElem_extractLsb', BitVec.getLsbD_append, hskip]
    iterate 6 rw [if_neg (by omega)]
    rw [BitVec.getLsbD_eq_getElem hi]

/-! ## The functions in both -/

section Imaged

variable {T : Set Word} {fr : Word → Frame} {s s' : Kernel} {m m' : Ram} {p : Slot} {t : Word}

variable (T fr) in
/-- The tables `T` lie in frames of their own, where the processor and the code find them,
and their words are the entries of `s`. -/
structure Imaged (s : Kernel) (m : Ram) : Prop where
  frames : m.kernel.frames = s.frames
  refs : m.kernel.frameRefCnt = s.frameRefCnt
  rest : m.kernel.rest = s.rest
  inj : ∀ t ∈ T, ∀ t' ∈ T, fr t = fr t' → t = t'
  walk : ∀ t ∈ T, ∀ write, m.walk t write false = .ok (fr t)
  word : ∀ t ∈ T, ∀ i, TableEntry.decode (m.word (fr t) i) = s.page ⟨t, i⟩

variable (T fr) in
/-- The entry is not that of the page of a table. -/
def Bare (s : Kernel) (p : Slot) : Prop :=
  ∀ t ∈ T, ¬ (((s.dir s.currentPageDir).entries (tbIdx t)).addr = fr p.table ∧
    tbOffset t = p.idx)

theorem Bare.of_rest (h : Bare T fr s p) (hrest : s'.rest = s.rest) : Bare T fr s' p := by
  have hdir : s'.dir = s.dir := (congrArg Kernel.dir hrest :)
  have hcur : s'.currentPageDir = s.currentPageDir := (congrArg Kernel.currentPageDir hrest :)
  rw [Bare, hdir, hcur]
  exact h

namespace Imaged

theorem dir (h : Imaged T fr s m) :
    m.kernel.dir m.kernel.currentPageDir = s.dir s.currentPageDir := by
  have hdir : m.kernel.dir = s.dir := (congrArg Kernel.dir h.rest :)
  have hcur : m.kernel.currentPageDir = s.currentPageDir :=
    (congrArg Kernel.currentPageDir h.rest :)
  rw [hdir, hcur]

theorem reach (h : Imaged T fr s m) (ht : t ∈ T) (write : Bool) :
    Ram.reach t write m = (.ok (fr t), m) := by
  rw [Ram.reach, h.walk t ht write]

theorem entry (h : Imaged T fr s m) (hp : p.table ∈ T) :
    Ram.entry p m = (.ok (s.page p), m) := by
  rw [Ram.entry, bind_ok (h.reach hp false), read_apply, h.word p.table hp p.idx]

/-- An entry is overwritten. -/
theorem setWord (h : Imaged T fr s m) (hp : p.table ∈ T) (hbare : Bare T fr s p)
    (e : TableEntry) :
    Imaged T fr (s.setEntry p fun _ => e) (m.setWord (fr p.table) p.idx e.encode) := by
  refine ⟨h.frames, h.refs, h.rest, h.inj, fun t ht write => ?_, fun t ht i => ?_⟩
  · rw [← h.walk t ht write]
    have hbare := hbare t ht
    rw [← h.dir] at hbare
    simp only [Ram.walk, Ram.setWord, if_neg hbare]
  · by_cases hsame : fr t = fr p.table ∧ i = p.idx
    · obtain ⟨hfr, rfl⟩ := hsame
      obtain rfl := h.inj t ht p.table hp hfr
      rw [Kernel.page_setEntry_self]
      simp only [Ram.setWord, and_self, if_true, TableEntry.decode_encode]
    · have hne : (⟨t, i⟩ : Slot) ≠ p := by
        rintro rfl
        exact hsame ⟨rfl, rfl⟩
      rw [Kernel.page_setEntry_of_ne _ _ hne, ← h.word t ht i]
      simp only [Ram.setWord, if_neg hsame]

theorem setEntry (h : Imaged T fr s m) (hp : p.table ∈ T) (hbare : Bare T fr s p)
    (f : TableEntry → TableEntry) :
    ∃ m', Ram.setEntry p f m = (.ok (), m') ∧ Imaged T fr (s.setEntry p f) m' := by
  refine ⟨m.setWord (fr p.table) p.idx (f (s.page p)).encode, ?_, h.setWord hp hbare _⟩
  rw [Ram.setEntry, bind_ok (h.reach hp true), modify_apply, h.word p.table hp p.idx]

/-- The stack of frames and the counts change. -/
theorem modifyVars (h : Imaged T fr s m) (f : Kernel → Kernel)
    (hf : ∀ k, (f k).page = k.page ∧ (f k).rest = k.rest)
    (hframes : (f m.kernel).frames = (f s).frames)
    (hrefs : (f m.kernel).frameRefCnt = (f s).frameRefCnt) :
    ∃ m', Ram.modifyVars f m = (.ok (), m') ∧ Imaged T fr (f s) m' := by
  have hdir : (f m.kernel).dir = m.kernel.dir := (congrArg Kernel.dir (hf m.kernel).2 :)
  have hcur : (f m.kernel).currentPageDir = m.kernel.currentPageDir :=
    (congrArg Kernel.currentPageDir (hf m.kernel).2 :)
  have hrest : (f m.kernel).rest = (f s).rest := by
    rw [(hf m.kernel).2, (hf s).2, h.rest]
  refine ⟨_, rfl, hframes, hrefs, hrest, h.inj, fun t ht write => ?_, fun t ht i => ?_⟩
  · rw [← h.walk t ht write]
    simp only [Ram.walk, hdir, hcur]
  · rw [(hf s).1]
    exact h.word t ht i

theorem setRef (h : Imaged T fr s m) (f : Frame) (n : Word) :
    ∃ m', Ram.modifyVars (·.setRef f n) m = (.ok (), m') ∧ Imaged T fr (s.setRef f n) m' :=
  h.modifyVars (·.setRef f n) (fun _ => ⟨rfl, rfl⟩) h.frames
    (by simp only [Kernel.setRef, h.refs])

/-- `alloc` does the same in memory. -/
theorem alloc (h : Imaged T fr s m) (hp : p.table ∈ T) (hbare : Bare T fr s p)
    (user writable : Bool) :
    ∃ m', Ram.alloc p user writable m = ((Page.alloc p user writable s).1, m') ∧
      Imaged T fr (Page.alloc p user writable s).2 m' := by
  obtain ⟨m₁, hrun₁, h₁⟩ := h.setEntry hp hbare ({ · with rw := writable, user := user })
  have hframes : m₁.kernel.frames = s.frames := h₁.frames
  rw [Ram.alloc, bind_ok hrun₁, bind_ok (h₁.entry hp), Kernel.page_setEntry_self]
  by_cases hzero : (s.page p).addr = 0
  · rw [if_pos hzero, bind_apply, read_apply, hframes]
    cases hf : s.frames with
    | nil =>
        rw [alloc_of_nil hzero hf]
        exact ⟨m₁, rfl, h₁⟩
    | cons f frames =>
        obtain ⟨m₂, hrun₂, h₂⟩ := h₁.modifyVars ({ · with frames := frames })
          (fun _ => ⟨rfl, rfl⟩) rfl h₁.refs
        obtain ⟨m₃, hrun₃, h₃⟩ := h₂.setEntry hp (hbare.of_rest rfl) ({ · with addr := f })
        obtain ⟨m₄, hrun₄, h₄⟩ := h₃.setRef f 1
        obtain ⟨m₅, hrun₅, h₅⟩ := h₄.setEntry hp (hbare.of_rest rfl)
          ({ · with allocable := true, present := true })
        refine ⟨m₅, ?_, ?_⟩
        · rw [alloc_of_cons hzero hf]
          dsimp only
          rw [bind_ok hrun₂, bind_ok hrun₃, bind_ok hrun₄, hrun₅]
        · simp only [Page.alloc, Kernel.page_setEntry_self, if_pos hzero, Kernel.frames_setEntry,
            hf]
          exact h₅
  · rw [if_neg hzero, alloc_of_held hzero]
    exact ⟨m₁, rfl, h₁⟩

/-- `free` does the same in memory. -/
theorem free (h : Imaged T fr s m) (hp : p.table ∈ T) (hbare : Bare T fr s p) :
    ∃ m', Ram.free p m = (.ok (), m') ∧ Imaged T fr (Page.free p s).2 m' := by
  rw [Ram.free, bind_ok (h.entry hp)]
  by_cases hzero : (s.page p).addr = 0
  · rw [if_pos hzero, free_of_zero hzero]
    exact ⟨m, rfl, h⟩
  · rw [if_neg hzero]
    obtain ⟨m₁, hrun₁, h₁⟩ := h.modifyVars
      (fun k => k.setRef (s.page p).addr (k.frameRefCnt (s.page p).addr - 1))
      (fun _ => ⟨rfl, rfl⟩) h.frames (by simp only [Kernel.setRef, h.refs])
    have hrefs : m₁.kernel.frameRefCnt (s.page p).addr = s.frameRefCnt (s.page p).addr - 1 := by
      rw [h₁.refs, Kernel.frameRefCnt_setRef_self]
    rw [bind_ok hrun₁, bind_apply, read_apply, hrefs]
    simp only [Page.free, modify_apply, if_neg hzero, Kernel.frameRefCnt_setRef_self]
    split
    · obtain ⟨m₂, hrun₂, h₂⟩ := h₁.modifyVars
        (fun k => { k with frames := (s.page p).addr :: k.frames }) (fun _ => ⟨rfl, rfl⟩)
        (by simp only [h₁.frames]) h₁.refs
      obtain ⟨m₃, hrun₃, h₃⟩ := h₂.setEntry hp (hbare.of_rest rfl)
        ({ · with addr := 0, present := false, allocable := false })
      exact ⟨m₃, by rw [bind_ok hrun₂, hrun₃], h₃⟩
    · obtain ⟨m₃, hrun₃, h₃⟩ := h₁.setEntry hp (hbare.of_rest rfl)
        ({ · with addr := 0, present := false, allocable := false })
      exact ⟨m₃, hrun₃, h₃⟩

end Imaged

variable (T fr) in
/-- The frame holds no table, neither for the code nor for the processor. -/
def Apart (s : Kernel) (f : Frame) : Prop :=
  ∀ t ∈ T, fr t ≠ f ∧ ((s.dir s.currentPageDir).entries (tbIdx t)).addr ≠ f

variable (T fr) in
/-- The first scratch page is there for kernel code. -/
structure Scratchable (s : Kernel) : Prop where
  mem : s.emptyPage0.table ∈ T
  bare : Bare T fr s s.emptyPage0
  entry : ((s.dir s.currentPageDir).entries (tbIdx s.emptyPage0Addr)).present = true ∧
    ((s.dir s.currentPageDir).entries (tbIdx s.emptyPage0Addr)).addr = fr s.emptyPage0.table
  idx : tbOffset s.emptyPage0Addr = s.emptyPage0.idx
  opened : (s.page s.emptyPage0).present = true ∧ (s.page s.emptyPage0).rw = true

theorem Scratchable.setEntry (h : Scratchable T fr s) (f : TableEntry → TableEntry)
    (hf : ∀ e, (f e).present = e.present ∧ (f e).rw = e.rw ∨ p ≠ s.emptyPage0) :
    Scratchable T fr (s.setEntry p f) := by
  refine ⟨h.mem, h.bare, h.entry, h.idx, ?_⟩
  change ((s.setEntry p f).page s.emptyPage0).present = true ∧
    ((s.setEntry p f).page s.emptyPage0).rw = true
  by_cases he : s.emptyPage0 = p
  · obtain ⟨hpresent, hrw⟩ := (hf (s.page p)).resolve_right fun hne => hne he.symm
    rw [he, Kernel.page_setEntry_self, hpresent, hrw, ← he]
    exact h.opened
  · rw [Kernel.page_setEntry_of_ne _ _ he]
    exact h.opened

namespace Imaged

/-- `fill_uint32` fills the frame, and tells of no other. -/
theorem fillUint32 (h : Imaged T fr s m) (hp : p.table ∈ T) (hscratch : Scratchable T fr s)
    (hapart : Apart T fr s (s.page p).addr) (val : Word) :
    ∃ m', Ram.fillUint32 p val m = (.ok (), m') ∧
      Imaged T fr (Page.fillUint32 p val s).2 m' ∧ m'.word (s.page p).addr = fun _ => val := by
  have he : m.kernel.emptyPage0 = s.emptyPage0 := (congrArg Kernel.emptyPage0 h.rest :)
  have ha : m.kernel.emptyPage0Addr = s.emptyPage0Addr := (congrArg Kernel.emptyPage0Addr h.rest :)
  obtain ⟨m₁, hrun₁, h₁⟩ := h.setEntry hscratch.mem hscratch.bare
    ({ · with addr := (s.page p).addr })
  have ha₁ : m₁.kernel.emptyPage0Addr = s.emptyPage0Addr :=
    (congrArg Kernel.emptyPage0Addr h₁.rest :)
  have hreach : Ram.reach s.emptyPage0Addr true m₁ = (.ok (s.page p).addr, m₁) := by
    have hword := h₁.word _ hscratch.mem s.emptyPage0.idx
    rw [Kernel.page_setEntry_self] at hword
    have hdir : m₁.kernel.dir m₁.kernel.currentPageDir = s.dir s.currentPageDir := h₁.dir
    rw [Ram.reach]
    simp only [Ram.walk, hdir, hscratch.entry.1, hscratch.entry.2, hscratch.idx, hword,
      hscratch.opened.1, hscratch.opened.2]
    rfl
  refine ⟨{ m₁ with word := fun g => if g = (s.page p).addr then fun _ => val else m₁.word g },
    ?_, ?_, if_pos rfl⟩
  · rw [Ram.fillUint32, bind_ok (h.entry hp), bind_apply, read_apply, he]
    dsimp only
    rw [bind_ok hrun₁, bind_apply, read_apply, ha₁]
    dsimp only
    rw [bind_ok hreach, modify_apply]
  · rw [fillUint32_apply]
    refine ⟨h₁.frames, h₁.refs, h₁.rest, h₁.inj, fun t ht write => ?_, fun t ht i => ?_⟩
    · rw [← h₁.walk t ht write]
      have hne := (hapart t ht).2
      have hdir : m₁.kernel.dir m₁.kernel.currentPageDir = s.dir s.currentPageDir := h₁.dir
      rw [← hdir] at hne
      simp only [Ram.walk, if_neg hne]
    · have hword := h₁.word t ht i
      simp only [if_neg (hapart t ht).1]
      exact hword

/-- `lazy_alloc` of a page without a frame does the same in memory. -/
theorem lazyAlloc_of_zero (h : Imaged T fr s m) (hp : p.table ∈ T) (hbare : Bare T fr s p)
    (hzero : (s.page p).addr = 0) (user writable fillZero : Bool) :
    ∃ m', Ram.lazyAlloc p user writable fillZero m = (.ok (), m') ∧
      Imaged T fr (Page.lazyAlloc p user writable fillZero s).2 m' := by
  obtain ⟨m₁, hrun₁, h₁⟩ := h.setEntry hp hbare ({ · with rw := writable, user := user })
  obtain ⟨m₂, hrun₂, h₂⟩ := h₁.setEntry hp (hbare.of_rest rfl)
    ({ · with allocable := true, allocFill := if fillZero then 1 else 0 })
  refine ⟨m₂, ?_, ?_⟩
  · rw [Ram.lazyAlloc, bind_ok hrun₁, bind_ok (h₁.entry hp), Kernel.page_setEntry_self,
      if_pos hzero]
    exact hrun₂
  · rw [Page.lazyAlloc_of_zero hzero, ← Kernel.setEntry_setEntry _ p
      ({ · with rw := writable, user := user })
      ({ · with allocable := true, allocFill := if fillZero then 1 else 0 })]
    exact h₂

/-- With `fill_zero`, `lazy_alloc` of a page with a frame clears the frame. -/
theorem lazyAlloc_of_held (h : Imaged T fr s m) (hp : p.table ∈ T) (hbare : Bare T fr s p)
    (hscratch : Scratchable T fr s) (hne : p ≠ s.emptyPage0) (hheld : (s.page p).addr ≠ 0)
    (hapart : Apart T fr s (s.page p).addr) (user writable : Bool) :
    ∃ m', Ram.lazyAlloc p user writable true m = (.ok (), m') ∧
      Imaged T fr (Page.lazyAlloc p user writable true s).2 m' ∧
      m'.word (s.page p).addr = fun _ => 0 := by
  obtain ⟨m₁, hrun₁, h₁⟩ := h.setEntry hp hbare ({ · with rw := writable, user := user })
  have hscratch₁ := hscratch.setEntry ({ · with rw := writable, user := user }) fun _ => .inr hne
  have haddr : ((s.setEntry p ({ · with rw := writable, user := user })).page p).addr =
      (s.page p).addr := by
    rw [Kernel.page_setEntry_self]
  obtain ⟨m₂, hrun₂, h₂, hword⟩ := h₁.fillUint32 hp hscratch₁ (by rw [haddr]; exact hapart) 0
  refine ⟨m₂, ?_, ?_, haddr ▸ hword⟩
  · rw [Ram.lazyAlloc, bind_ok hrun₁, bind_ok (h₁.entry hp), haddr, if_neg hheld]
    exact hrun₂
  · rw [Page.lazyAlloc_of_held hheld]
    exact h₂

end Imaged

/-! ## The places of the tables -/

/-- The processor and the code have the same tables: each lies in the frame that the
directory names, at the beginning of a page. -/
structure Synced (T : Set Word) (fr : Word → Frame) (s : Kernel) : Prop where
  aligned : ∀ t ∈ T, pageOf t = t
  entry : ∀ i, (s.dir s.currentPageDir).tables i ∈ T →
    ((s.dir s.currentPageDir).entries i).present = true ∧
      ((s.dir s.currentPageDir).entries i).addr = fr ((s.dir s.currentPageDir).tables i)
  mapped : ∀ t ∈ T, (s.dir s.currentPageDir).tables (tbIdx t) ∈ T

namespace Imaged

/-- The walk through memory is that through the entries. -/
theorem walk_eq (h : Imaged T fr s m) (hsync : Synced T fr s) {addr : Word}
    (hlook : lookup s s.currentPageDir addr = some p) (hp : p.table ∈ T) (write user : Bool) :
    m.walk addr write user = Page.walk s addr write user := by
  have htable : (s.dir s.currentPageDir).tables (tbIdx addr) = p.table ∧ tbOffset addr = p.idx := by
    rw [lookup] at hlook
    split at hlook
    · cases hlook
    · cases hlook
      exact ⟨rfl, rfl⟩
  obtain ⟨hpresent, haddr⟩ := hsync.entry (tbIdx addr) (by rw [htable.1]; exact hp)
  rw [htable.1] at haddr
  simp only [Ram.walk, Page.walk, h.dir, hpresent, haddr, htable.2, h.word _ hp, hlook]
  cases (s.page p).present <;> simp

/-- The entry of a page that holds no table is not that of a table. -/
theorem bare {g : Layout} (h : Imaged {t | t ∈ s.tables} fr s m)
    (hsync : Synced {t | t ∈ s.tables} fr s) (hl : Linked g s) {addr : Word}
    (hlook : lookup s s.currentPageDir addr = some p) (hplain : ¬ HoldsTable s addr) :
    Bare {t | t ∈ s.tables} fr s p := by
  rintro t ht ⟨hframe, hidx⟩
  obtain ⟨hp, heq, hne⟩ := hl.lookup_mem hl.current hlook
  have hnull : p.table ≠ null := by
    rw [heq]
    exact hne
  have hmapped := hsync.mapped t ht
  rw [(hsync.entry _ hmapped).2] at hframe
  have htable := h.inj _ hmapped _ hp hframe
  have hlook' : lookup s s.currentPageDir t = some p := by
    rw [lookup, htable, if_neg hnull, hidx]
  have hpage := hl.pageOf_eq_of_lookup hl.current hlook hlook'
  rw [hsync.aligned t ht] at hpage
  exact hplain (.inl (hpage ▸ ht))

/-- It is enough to look at some of the tables. -/
theorem subset {T' : Set Word} (h : Imaged T fr s m) (hsub : T' ⊆ T) : Imaged T' fr s m :=
  ⟨h.frames, h.refs, h.rest, fun t ht t' ht' => h.inj t (hsub ht) t' (hsub ht'),
    fun t ht => h.walk t (hsub ht), fun t ht => h.word t (hsub ht)⟩

end Imaged

theorem Synced.of_rest (h : Synced T fr s) (hrest : s'.rest = s.rest) : Synced T fr s' := by
  have hdir : s'.dir = s.dir := (congrArg Kernel.dir hrest :)
  have hcur : s'.currentPageDir = s.currentPageDir := (congrArg Kernel.currentPageDir hrest :)
  refine ⟨h.aligned, ?_, ?_⟩
  · rw [hdir, hcur]
    exact h.entry
  · rw [hdir, hcur]
    exact h.mapped

end Imaged

/-- The frame of the page where a table lies. -/
def tableFrame (s : Kernel) (t : Word) : Frame :=
  match lookup s s.currentPageDir t with
  | none => 0
  | some p => (s.page p).addr

/-- The state with its tables written to memory. -/
def image (s : Kernel) : Ram where
  kernel := s
  word f i :=
    match s.tables.find? fun t => decide (tableFrame s t = f) with
    | some t => (s.page ⟨t, i⟩).encode
    | none => s.phys f (i ++ (3 : BitVec 2)) ++ s.phys f (i ++ (2 : BitVec 2)) ++
        s.phys f (i ++ (1 : BitVec 2)) ++ s.phys f (i ++ (0 : BitVec 2))

theorem image_imaged {s : Kernel} (hnodup : (s.tables.map (tableFrame s)).Nodup)
    (hwalk : ∀ t ∈ s.tables, ∀ write, (image s).walk t write false = .ok (tableFrame s t)) :
    Imaged {t | t ∈ s.tables} (tableFrame s) s (image s) := by
  have hinj : ∀ t ∈ s.tables, ∀ t' ∈ s.tables, tableFrame s t = tableFrame s t' → t = t' :=
    fun t ht t' ht' => List.inj_on_of_nodup_map hnodup ht ht'
  refine ⟨rfl, rfl, rfl, hinj, hwalk, fun t ht i => ?_⟩
  cases hfind : s.tables.find? fun t' => decide (tableFrame s t' = tableFrame s t) with
  | none =>
      have hnone := List.find?_eq_none.mp hfind t ht
      exact absurd (decide_eq_true rfl) hnone
  | some t' =>
      have hsome := List.find?_some hfind
      have hframe : tableFrame s t' = tableFrame s t := of_decide_eq_true hsome
      obtain rfl := hinj t' (List.mem_of_find?_eq_some hfind) t ht hframe
      simp only [image, hfind, TableEntry.decode_encode]

/-! ## Runs -/

/-- A call that returns, on pages that have tables and are neither identity-mapped nor scratch
pages; or a fault. -/
inductive RamStep (m m' : Ram) : Prop
  | alloc {d addr : Word} {user writable : Bool} {p : Slot} (hd : d ∈ m.kernel.dirs)
      (haddr : OrdinaryPage m.kernel addr) (hlook : lookup m.kernel d addr = some p)
      (hrun : Ram.alloc p user writable m = (.ok (), m'))
  | lazyAlloc {d addr : Word} {user writable fillZero : Bool} {p : Slot} (hd : d ∈ m.kernel.dirs)
      (haddr : OrdinaryPage m.kernel addr) (hlook : lookup m.kernel d addr = some p)
      (hrun : Ram.lazyAlloc p user writable fillZero m = (.ok (), m'))
  | free {d addr : Word} {p : Slot} (hd : d ∈ m.kernel.dirs)
      (haddr : OrdinaryPage m.kernel addr) (hlook : lookup m.kernel d addr = some p)
      (hrun : Ram.free p m = (.ok (), m'))
  | freeInterval {d start stop : Word} (hd : d ∈ m.kernel.dirs)
      (hpages : ∀ i, start ≤ i → i < stop → OrdinaryPage m.kernel i)
      (hrun : Ram.freeInterval d start stop m = (.ok (), m'))
  | fault {addr eip errCode : Word} {write : Bool}
      (hwalk : m.walk addr write (decide (m.kernel.kernelCodeEnd ≤ eip)) = .error errCode)
      (hrun : Ram.pageFault addr errCode eip m = (.ok (), m'))

abbrev RamRuns : Ram → Ram → Prop := Relation.ReflTransGen RamStep

/-! ## Runs on plain pages -/

/-- A call that returns, on a page of the current directory that holds no table. A page that
`lazy_alloc` opens has no frame yet. -/
inductive PlainStep (s s' : Kernel) : Prop
  | alloc {addr : Word} {user writable : Bool} {p : Slot} (haddr : PlainPage s addr)
      (hlook : lookup s s.currentPageDir addr = some p)
      (hrun : Page.alloc p user writable s = (.ok (), s'))
  | lazyAlloc {addr : Word} {user writable fillZero : Bool} {p : Slot} (haddr : PlainPage s addr)
      (hlook : lookup s s.currentPageDir addr = some p) (hzero : (s.page p).addr = 0)
      (hrun : Page.lazyAlloc p user writable fillZero s = (.ok (), s'))
  | free {addr : Word} {p : Slot} (haddr : PlainPage s addr)
      (hlook : lookup s s.currentPageDir addr = some p) (hrun : Page.free p s = (.ok (), s'))

/-- All tables are in memory, and the processor and the code find them there. -/
structure Mirrors (fr : Word → Frame) (s : Kernel) (m : Ram) : Prop where
  imaged : Imaged {t | t ∈ s.tables} fr s m
  synced : Synced {t | t ∈ s.tables} fr s

section Mirrors

variable {g : Layout} {fr : Word → Frame} {s s' : Kernel} {m m' : Ram} {p : Slot}

theorem PlainStep.rest (h : PlainStep s s') : s'.rest = s.rest := by
  cases h with
  | alloc haddr hlook hrun =>
      obtain ⟨-, rfl⟩ | ⟨-, f, frames, -, rfl⟩ := (alloc_ends s _ _ _).ok hrun
      · rfl
      · rfl
  | lazyAlloc haddr hlook hzero hrun =>
      rw [lazyAlloc_of_zero hzero] at hrun
      cases hrun
      rfl
  | free haddr hlook hrun =>
      cases hrun
      exact free_rest s _

/-- Directories and the kinds of pages depend on the rest of the state only. -/
theorem ordinary_of_rest {k : Kernel} {d addr : Word} (hrest : k.rest = s.rest) (hd : d ∈ s.dirs)
    (haddr : OrdinaryPage s addr) (hlook : lookup s d addr = some p) :
    d ∈ k.dirs ∧ OrdinaryPage k addr ∧ lookup k d addr = some p := by
  have hdirs : k.dirs = s.dirs := (congrArg Kernel.dirs hrest :)
  have hdir : k.dir = s.dir := (congrArg Kernel.dir hrest :)
  have hend : k.kheapStaticEnd = s.kheapStaticEnd := (congrArg Kernel.kheapStaticEnd hrest :)
  have h0 : k.emptyPage0Addr = s.emptyPage0Addr := (congrArg Kernel.emptyPage0Addr hrest :)
  have h1 : k.emptyPage1Addr = s.emptyPage1Addr := (congrArg Kernel.emptyPage1Addr hrest :)
  refine ⟨?_, ?_, ?_⟩
  · rw [hdirs]
    exact hd
  · rw [OrdinaryPage, IdentityPage, ScratchPage, hend, h0, h1]
    exact haddr
  · rw [lookup, hdir]
    exact hlook

namespace Mirrors

theorem of_rest (h : Mirrors fr s m) (hrest : s'.rest = s.rest)
    (himaged : Imaged {t | t ∈ s.tables} fr s' m') : Mirrors fr s' m' := by
  have htables : s'.tables = s.tables := (congrArg Kernel.tables hrest :)
  refine ⟨?_, ?_⟩
  · rw [htables]
    exact himaged
  · rw [htables]
    exact h.synced.of_rest hrest

/-- Each call does the same in memory. -/
theorem step (h : Mirrors fr s m) (hl : Linked g s) (hstep : PlainStep s s') :
    ∃ m', RamStep m m' ∧ Mirrors fr s' m' := by
  have hrest := hstep.rest
  cases hstep with
  | alloc haddr hlook hrun =>
      obtain ⟨hd, haddr', hlook'⟩ := ordinary_of_rest h.imaged.rest hl.current haddr.1 hlook
      have hbare := h.imaged.bare h.synced hl hlook haddr.2
      obtain ⟨m', hram, himaged⟩ :=
        h.imaged.alloc (hl.lookup_mem hl.current hlook).1 hbare _ _
      rw [hrun] at hram himaged
      exact ⟨m', .alloc hd haddr' hlook' hram, h.of_rest hrest himaged⟩
  | lazyAlloc haddr hlook hzero hrun =>
      obtain ⟨hd, haddr', hlook'⟩ := ordinary_of_rest h.imaged.rest hl.current haddr.1 hlook
      have hbare := h.imaged.bare h.synced hl hlook haddr.2
      obtain ⟨m', hram, himaged⟩ :=
        h.imaged.lazyAlloc_of_zero (hl.lookup_mem hl.current hlook).1 hbare hzero _ _ _
      rw [hrun] at himaged
      exact ⟨m', .lazyAlloc hd haddr' hlook' hram, h.of_rest hrest himaged⟩
  | free haddr hlook hrun =>
      obtain ⟨hd, haddr', hlook'⟩ := ordinary_of_rest h.imaged.rest hl.current haddr.1 hlook
      have hbare := h.imaged.bare h.synced hl hlook haddr.2
      obtain ⟨m', hram, himaged⟩ := h.imaged.free (hl.lookup_mem hl.current hlook).1 hbare
      rw [hrun] at himaged
      exact ⟨m', .free hd haddr' hlook' hram, h.of_rest hrest himaged⟩

/-- Every run of such calls is a run in memory, and the processor sees the same pages. -/
theorem runs (h : Mirrors fr s m) (hl : Linked g s)
    (hruns : Relation.ReflTransGen PlainStep s s') :
    ∃ m', RamRuns m m' ∧ Mirrors fr s' m' ∧
      ∀ addr p, lookup s' s'.currentPageDir addr = some p → ∀ write user,
        m'.walk addr write user = walk s' addr write user := by
  have hrun : ∃ m', RamRuns m m' ∧ Mirrors fr s' m' ∧ Linked g s' := by
    induction hruns with
    | refl => exact ⟨m, .refl, h, hl⟩
    | tail _ hstep ih =>
        obtain ⟨m₁, hrun₁, h₁, hl₁⟩ := ih
        obtain ⟨m₂, hstep₂, h₂⟩ := h₁.step hl₁ hstep
        exact ⟨m₂, hrun₁.tail hstep₂, h₂, hl₁.congr hstep.rest⟩
  obtain ⟨m', hrun, h', hl'⟩ := hrun
  refine ⟨m', hrun, h', fun addr p hlook => ?_⟩
  exact h'.imaged.walk_eq h'.synced hlook (hl'.lookup_mem hl'.current hlook).1

end Mirrors

end Mirrors

/-! ## The properties in memory -/

namespace Ram

/-- A table lies in the frame, for the code or for the processor. -/
def HasTable (m : Ram) (f : Frame) : Prop :=
  (∃ t ∈ m.kernel.tables, m.walk t false false = .ok f) ∨
    ∃ d ∈ m.kernel.dirs, ∃ i, ((m.kernel.dir d).entries i).present = true ∧
      ((m.kernel.dir d).entries i).addr = f

/-- The entries other than those of the scratch pages that have the frame, by their places. -/
def holders (m : Ram) (f : Frame) : Set (Frame × BitVec 10) :=
  {q | m.HasTable q.1 ∧ (∀ e ∈ [m.kernel.emptyPage0, m.kernel.emptyPage1],
    m.walk e.table false false = .ok q.1 → q.2 ≠ e.idx) ∧
    (TableEntry.decode (m.word q.1 q.2)).addr = f}

/-- A frame is on the stack once and held by no entry, or it is off the stack and its count
is the number of entries that hold it. -/
def Accounted (m : Ram) (f : Frame) : Prop :=
  ((m.holders f).Nonempty →
    (m.kernel.frameRefCnt f).toNat = (m.holders f).ncard ∧ f ∉ m.kernel.frames) ∧
    (m.holders f = ∅ → m.kernel.frames.count f = 1)

/-- When each fault is handed to `page_fault` and the access is then repeated, it is
permitted or the kernel panics, after at most `n` returns of `page_fault`. -/
inductive Settles (addr : Word) (write : Bool) (eip : Word) : Nat → Ram → Prop
  | permitted {n : Nat} {m : Ram} {f : Frame}
      (h : m.walk addr write (decide (m.kernel.kernelCodeEnd ≤ eip)) = .ok f) :
      Settles addr write eip n m
  | panic {n : Nat} {m m' : Ram} {errCode : Word} {e : Fault}
      (h : m.walk addr write (decide (m.kernel.kernelCodeEnd ≤ eip)) = .error errCode)
      (hpanic : pageFault addr errCode eip m = (.error e, m')) : Settles addr write eip n m
  | retry {n : Nat} {m m' : Ram} {errCode : Word}
      (h : m.walk addr write (decide (m.kernel.kernelCodeEnd ≤ eip)) = .error errCode)
      (hreturn : pageFault addr errCode eip m = (.ok (), m'))
      (hnext : Settles addr write eip n m') :
      Settles addr write eip (n + 1) m

theorem setWord_self {m : Ram} {f : Frame} {i : BitVec 10} {w : Word} (h : m.word f i = w) :
    m.setWord f i w = m := by
  have hword : (fun g j => if g = f ∧ j = i then w else m.word g j) = m.word := by
    funext g j
    split
    · next hsame => rw [hsame.1, hsame.2, h]
    · rfl
  rw [setWord, hword]

/-- A fault on a page that is not present, although its entry has a frame, changes nothing. -/
theorem pageFault_of_held {m : Ram} {addr errCode eip : Word} {p : Slot} {e : TableEntry}
    {f : Frame} (hlook : lookup m.kernel m.kernel.currentPageDir addr = some p)
    (hread : m.walk p.table false false = .ok f) (hwrite : m.walk p.table true false = .ok f)
    (hword : m.word f p.idx = e.encode)
    (hopen : ¬ (e.allocable = false ∨ e.user = false ∧ eip ≥ m.kernel.kernelCodeEnd))
    (habsent : errCode &&& 1 = 0) (hheld : e.addr ≠ 0) (hfill : e.allocFill = 0) :
    pageFault addr errCode eip m = (.ok (), m) := by
  have hentry : entry p m = (.ok e, m) := by
    simp only [entry, reach, hread, bind_apply, read_apply, hword, TableEntry.decode_encode]
  have hset : setEntry p ({ · with rw := e.rw, user := e.user }) m = (.ok (), m) := by
    simp only [setEntry, reach, hwrite, bind_apply, modify_apply, hword, TableEntry.decode_encode]
    rw [setWord_self hword]
  have halloc : alloc p e.user e.rw m = (.ok (), m) := by
    rw [alloc, bind_ok hset, bind_ok hentry, if_neg hheld]
    rfl
  rw [pageFault, bind_apply, read_apply, hlook]
  dsimp only
  rw [bind_ok hentry, bind_apply, read_apply]
  dsimp only
  rw [if_neg hopen, if_pos habsent, bind_ok halloc, bind_ok hentry, if_neg (not_not_intro hfill)]
  rfl

/-- A fault after which nothing has changed is repeated for ever. -/
theorem Settles.not_of_fixed {addr eip errCode : Word} {write : Bool} {m : Ram}
    (hwalk : m.walk addr write (decide (m.kernel.kernelCodeEnd ≤ eip)) = .error errCode)
    (hreturn : pageFault addr errCode eip m = (.ok (), m)) (n : Nat) :
    ¬ Settles addr write eip n m := by
  intro h
  induction n with
  | zero =>
      cases h with
      | permitted h => rw [hwalk] at h; cases h
      | panic h hpanic =>
          rw [hwalk] at h
          cases h
          rw [hreturn] at hpanic
          cases hpanic
  | succ n ih =>
      cases h with
      | permitted h => rw [hwalk] at h; cases h
      | panic h hpanic =>
          rw [hwalk] at h
          cases h
          rw [hreturn] at hpanic
          cases hpanic
      | retry h hreturn' hnext =>
          rw [hwalk] at h
          cases h
          rw [hreturn] at hreturn'
          cases hreturn'
          exact ih hnext

end Ram

end Jkos.Page
