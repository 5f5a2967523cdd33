import Jkos.Kheap.Tree

/-!
# The state of the memory subsystem and the page-table entries

`Kernel` holds the static variables of `page.cpp` and `kheap.cpp`, the page tables and
directories as objects at their addresses, and the contents of physical memory. The bit
fields that no function reads (`wrt_thr`, `cache_dis`, `accessed`, `dirty`, `global`) are
left out. An access walks the tables; what the processor keeps of them is in `Page.Tlb`.
-/

namespace Jkos

/-- The number of a physical frame. -/
abbrev Frame := BitVec 20

namespace Page

/-- `Table_entry_t`. -/
structure TableEntry where
  present : Bool
  rw : Bool
  user : Bool
  allocable : Bool
  allocFill : BitVec 2
  addr : Frame
  deriving DecidableEq

/-- An entry of a table that `memset` has cleared. -/
def TableEntry.zero : TableEntry := ⟨false, false, false, false, 0, 0⟩

/-- `Directory_entry_t`. -/
structure DirectoryEntry where
  present : Bool
  rw : Bool
  user : Bool
  addr : Frame
  deriving DecidableEq

/-- `Directory_t`. -/
structure Directory where
  tables : BitVec 10 → Word
  entries : BitVec 10 → DirectoryEntry
  phyaddr : Word

/-- A directory that `memset` has cleared. -/
def Directory.zero : Directory := ⟨fun _ => null, fun _ => ⟨false, false, false, 0⟩, 0⟩

/-- A `Table_entry_t *`: an index into the table at an address. -/
structure Slot where
  table : Word
  idx : BitVec 10
  deriving DecidableEq

end Page

open Page in
/-- The memory subsystem. `tables` and `dirs` list the objects in existence; they are
ghost data, recorded and never read. -/
structure Kernel where
  frames : List Frame
  frameRefCnt : Frame → Word
  page : Slot → TableEntry
  tables : List Word
  dir : Word → Directory
  dirs : List Word
  phys : Frame → BitVec 12 → Byte
  currentPageDir : Word
  emptyPage0Addr : Word
  emptyPage1Addr : Word
  emptyPage0 : Slot
  emptyPage1 : Slot
  kernelLowNtable : Nat
  kernelCodeEnd : Word
  initFinished : Bool
  heap : Kheap.Heap
  kheapFinishInit : Bool
  kheapStaticEnd : Word
  userMemLow : Word
  userMemHigh : Word

namespace Kernel

open Page

/-- Update an entry in place. -/
def setEntry (s : Kernel) (p : Slot) (f : TableEntry → TableEntry) : Kernel :=
  { s with page := fun q => if q = p then f (s.page p) else s.page q }

def setRef (s : Kernel) (f : Frame) (n : Word) : Kernel :=
  { s with frameRefCnt := fun g => if g = f then n else s.frameRefCnt g }

/-- Overwrite the contents of a frame. -/
def setFrame (s : Kernel) (f : Frame) (bytes : BitVec 12 → Byte) : Kernel :=
  { s with phys := fun g => if g = f then bytes else s.phys g }

def setByte (s : Kernel) (f : Frame) (off : BitVec 12) (v : Byte) : Kernel :=
  s.setFrame f (fun o => if o = off then v else s.phys f o)

/-- Update a directory in place. -/
def setDir (s : Kernel) (d : Word) (f : Directory → Directory) : Kernel :=
  { s with dir := fun q => if q = d then f (s.dir d) else s.dir q }

end Kernel

namespace Page

open Exec (read modify throw)

/-- The programs of the memory subsystem. -/
abbrev Prog := Exec Kernel Fault

/-- Index of the table for an address. -/
def tbIdx (addr : Word) : BitVec 10 := (addr >>> 22).setWidth 10

/-- Index of the entry for an address in its table. -/
def tbOffset (addr : Word) : BitVec 10 := (addr >>> 12).setWidth 10

def pageOffset (addr : Word) : BitVec 12 := addr.setWidth 12

/-- The index of the first table of the kernel heap. -/
def heapBeginIdx : Nat := (kernelHeapBegin >>> 22).toNat

/-- The index behind the last table of the kernel heap. -/
def heapEndIdx : Nat := (kernelHeapEnd >>> 22).toNat

/-! ## Entries -/

/-- `Table_entry_t::alloc`. -/
def alloc (p : Slot) (user writable : Bool) : Prog Unit := fun s =>
  let s := s.setEntry p ({ · with rw := writable, user := user })
  if (s.page p).addr = 0 then
    match s.frames with
    | [] => (.error .noFreeFrame, s)
    | f :: frames =>
      let s := { s with frames := frames }
      let s := s.setEntry p ({ · with addr := f })
      let s := s.setRef f 1
      (.ok (), s.setEntry p ({ · with allocable := true, present := true }))
  else (.ok (), s)

/-- `Table_entry_t::fill_uint32`, through the first scratch page, which is present and
writable since `Page::init`. -/
def fillUint32 (p : Slot) (val : Word) : Prog Unit := modify fun s =>
  let s := s.setEntry s.emptyPage0 ({ · with addr := (s.page p).addr })
  s.setFrame (s.page s.emptyPage0).addr
    (fun off => (val >>> (8 * (off.toNat % 4))).setWidth 8)

/-- `Table_entry_t::lazy_alloc`. -/
def lazyAlloc (p : Slot) (user writable fillZero : Bool) : Prog Unit := do
  modify (·.setEntry p ({ · with rw := writable, user := user }))
  if (← read (·.page p)).addr = 0 then
    modify (·.setEntry p ({ · with allocable := true, allocFill := if fillZero then 1 else 0 }))
  else if fillZero then fillUint32 p 0
  else pure ()

/-- `Table_entry_t::free`. -/
def free (p : Slot) : Prog Unit := modify fun s =>
  let f := (s.page p).addr
  if f = 0 then s
  else
    let s := s.setRef f (s.frameRefCnt f - 1)
    let s := if s.frameRefCnt f = 0 then { s with frames := f :: s.frames } else s
    s.setEntry p ({ · with addr := 0, present := false, allocable := false })

/-- `copy_page_physical`, through the two scratch pages. -/
def copyPagePhysical (dest src : Word) : Prog Unit := modify fun s =>
  let s := s.setEntry s.emptyPage0 ({ · with addr := (src >>> 12).setWidth 20 })
  let s := s.setEntry s.emptyPage1 ({ · with addr := (dest >>> 12).setWidth 20 })
  s.setFrame (s.page s.emptyPage1).addr (s.phys (s.page s.emptyPage0).addr)

/-- `Directory_t::get_page` of the directory at `d`, when no table is to be made. -/
def lookup (s : Kernel) (d addr : Word) : Option Slot :=
  let t := (s.dir d).tables (tbIdx addr)
  if t = null then none else some ⟨t, tbOffset addr⟩

/-! ## Page faults and memory accesses -/

/-- `addr << 12` of a frame number. -/
def frameAddr (f : Frame) : Word := f.setWidth 32 <<< 12

/-- `page_fault`: the address is in `cr2`, the error code and `eip` in the registers. -/
def pageFault (addr errCode eip : Word) : Prog Unit := do
  let d ← read (·.currentPageDir)
  match ← read (lookup · d addr) with
  | none => throw (.pageFault addr errCode)
  | some p =>
    let e ← read (·.page p)
    let codeEnd ← read (·.kernelCodeEnd)
    if e.allocable = false ∨ (e.user = false ∧ eip ≥ codeEnd) then throw (.pageFault addr errCode)
    else if errCode &&& 1 = 0 then
      alloc p e.user e.rw
      if (← read (·.page p)).allocFill ≠ 0 then fillUint32 p 0 else pure ()
    else if errCode &&& 2 ≠ 0 ∧ e.user = true then
      let n ← read (·.frameRefCnt e.addr)
      if e.addr = 0 ∨ n = 0 then throw (.pageFault addr errCode)
      else if n = 1 then modify (·.setEntry p ({ · with rw := true }))
      else
        modify fun s => (s.setRef e.addr (n - 1)).setEntry p ({ · with addr := 0 })
        alloc p true true
        copyPagePhysical (frameAddr (← read (·.page p)).addr) (frameAddr e.addr)
    else throw (.pageFault addr errCode)

/-- The error code of the processor: protection violation, write, user mode. -/
def errCodeOf (protection write user : Bool) : Word :=
  (if protection then 1 else 0) ||| (if write then 2 else 0) ||| (if user then 4 else 0)

/-- The page walk of the processor in the current directory, with `CR0.WP` set: the
frame, or the error code of the fault. -/
def walk (s : Kernel) (addr : Word) (write user : Bool) : Except Word Frame :=
  match lookup s s.currentPageDir addr with
  | none => .error (errCodeOf false write user)
  | some p =>
    let e := s.page p
    if e.present = false then .error (errCodeOf false write user)
    else if (user = true ∧ e.user = false) ∨ (write = true ∧ e.rw = false) then
      .error (errCodeOf true write user)
    else .ok e.addr

/-- Walk the tables until the access is permitted, with a fault after each failure. The
code at `eip` runs in user mode exactly if it lies above the kernel. -/
def accessLoop (addr : Word) (write : Bool) (eip : Word) : Nat → Prog Frame
  | 0 => throw .diverge
  | fuel + 1 => do
    match ← read (fun s => walk s addr write (decide (s.kernelCodeEnd ≤ eip))) with
    | .ok f => pure f
    | .error errCode =>
      pageFault addr errCode eip
      accessLoop addr write eip fuel

def access (addr : Word) (write : Bool) (eip : Word) : Prog Frame :=
  accessLoop addr write eip loopBound

def readByte (addr eip : Word) : Prog Byte := do
  let f ← access addr false eip
  read (·.phys f (pageOffset addr))

def writeByte (addr : Word) (v : Byte) (eip : Word) : Prog Unit := do
  let f ← access addr true eip
  modify (·.setByte f (pageOffset addr) v)

/-- An instruction of the kernel. -/
def kernelEip : Prog Word := read (fun s => s.kernelCodeEnd - 1)

/-- `memset` by kernel code. -/
def memset (dest : Word) (val : Byte) : Nat → Prog Unit
  | 0 => pure ()
  | cnt + 1 => do
    writeByte dest val (← kernelEip)
    memset (dest + 1) val cnt

/-- `memcpy` of the bytes of an object to memory, by kernel code. -/
def store (dest : Word) : List Byte → Prog Unit
  | [] => pure ()
  | v :: vs => do
    writeByte dest v (← kernelEip)
    store (dest + 1) vs

/-- `memcpy` from memory to an object of `cnt` bytes, by kernel code. -/
def load (src : Word) : Nat → Prog (List Byte)
  | 0 => pure []
  | cnt + 1 => do
    let v ← readByte src (← kernelEip)
    let vs ← load (src + 1) cnt
    pure (v :: vs)

/-! ## Directories -/

/-- `Directory_t::get_physical_addr`. -/
def getPhysicalAddr (d addr : Word) (alloc user writable : Bool) : Prog Word := do
  if (← read (·.initFinished)) = false then pure addr
  else
    match ← read (lookup · d addr) with
    | none => pure 0
    | some p =>
      if (← read (·.page p)).addr = 0 then
        if alloc = false then pure 0
        else
          Page.alloc p user writable
          pure (frameAddr (← read (·.page p)).addr ||| (addr &&& 0xFFF))
      else pure (frameAddr (← read (·.page p)).addr ||| (addr &&& 0xFFF))

/-- `sizeof(Table_t)`. -/
def sizeofTable : Word := 4096

/-- `sizeof(Directory_t)`. -/
def sizeofDirectory : Word := 8196

/-- A cleared table comes into existence at `t`. -/
def newTable (t : Word) : Prog Unit := modify fun s =>
  { s with page := fun q => if q.table = t then TableEntry.zero else s.page q
           tables := t :: s.tables }

section Interval

-- `kmalloc` needs page tables itself
variable (kmalloc : Word → Nat → Prog Word)

/-- `Directory_t::get_page` with `make = true`. The table is cleared as an object, then its
bytes, which faults its pages in. -/
def getPageWith (d addr : Word) : Prog Slot := do
  let i := tbIdx addr
  let t ← read (fun s => (s.dir d).tables i)
  if t = null then
    let t ← kmalloc sizeofTable 12
    newTable t
    modify (·.setDir d fun x => { x with tables := fun j => if j = i then t else x.tables j })
    memset t 0 sizeofTable.toNat
    let phys ← getPhysicalAddr (← read (·.currentPageDir)) t false false true
    modify (·.setDir d fun x => { x with entries := fun j =>
      if j = i then ⟨true, true, true, (phys >>> 12).setWidth 20⟩ else x.entries j })
    pure ⟨t, tbOffset addr⟩
  else pure ⟨t, tbOffset addr⟩

/-- `for (uint32_t i = begin; i < end; i += 0x1000)`. -/
def forPages {σ : Type} (body : Word → Exec σ Fault Unit) (stop : Word) :
    Nat → Word → Exec σ Fault Unit
  | 0, _ => throw .diverge
  | fuel + 1, i =>
    if i < stop then do
      body i
      forPages body stop fuel (i + 0x1000)
    else pure ()

/-- The assertions on the bounds of an interval, then its pages. -/
def interval {σ : Type} (body : Word → Exec σ Fault Unit) (start stop : Word) :
    Exec σ Fault Unit :=
  if pageOf start = start ∧ pageOf stop = stop then forPages body stop loopBound start
  else throw .assertion

/-- `Directory_t::lazy_alloc_interval`. -/
def lazyAllocIntervalWith (d start stop : Word) (user writable fillZero : Bool) : Prog Unit :=
  interval (fun i => do
    let p ← getPageWith kmalloc d i
    lazyAlloc p user writable fillZero) start stop

/-- `Directory_t::alloc_interval`. -/
def allocIntervalWith (d start stop : Word) (user writable : Bool) : Prog Unit :=
  interval (fun i => do
    let p ← getPageWith kmalloc d i
    alloc p user writable) start stop

end Interval

/-- `Directory_t::free_interval`. -/
def freeInterval (d start stop : Word) : Prog Unit :=
  interval (fun i => do
    match ← read (lookup · d i) with
    | none => pure ()
    | some p => if (← read (·.page p)).present = true then free p else pure ()) start stop

end Page

end Jkos
