import Jkos.Kheap.Basic

/-!
# Directories and their clones

`get_page` and the interval functions with the real `kmalloc`, and `clone_directory`: the
tables of the kernel are linked, the kernel stack is copied, and the tables of the user
range are cloned entry by entry for copy-on-write.
-/

namespace Jkos.Page

open Exec (read modify throw)
open Kheap (kmalloc)

/-- `Directory_t::get_page`. -/
def getPage (d addr : Word) (make : Bool) : Prog (Option Slot) :=
  if make then do
    let p ← getPageWith kmalloc d addr
    pure (some p)
  else read (lookup · d addr)

def lazyAllocInterval : Word → Word → Word → Bool → Bool → Bool → Prog Unit :=
  lazyAllocIntervalWith kmalloc

def allocInterval : Word → Word → Word → Bool → Bool → Prog Unit := allocIntervalWith kmalloc

/-! ## Cloning -/

/-- The body of the loop of `clone_table`. -/
def cloneEntry (dest src : Word) (i : BitVec 10) : Prog Unit := modify fun s =>
  let e := s.page ⟨src, i⟩
  if e.addr = 0 then s.setEntry ⟨dest, i⟩ (fun _ => e)
  else
    let s := s.setEntry ⟨src, i⟩ ({ · with rw := false })
    let s := s.setEntry ⟨dest, i⟩ (fun _ => s.page ⟨src, i⟩)
    s.setRef e.addr (s.frameRefCnt e.addr + 1)

/-- Run the body for the indices `i`, `i + 1`, … of a table. -/
def forIdx (body : BitVec 10 → Prog Unit) : Nat → Nat → Prog Unit
  | 0, _ => pure ()
  | cnt + 1, i => do
    body (BitVec.ofNat 10 i)
    forIdx body cnt (i + 1)

def cloneTable (src : Word) : Prog Word := do
  let dest ← kmalloc sizeofTable 12
  newTable dest
  memset dest 0 sizeofTable.toNat
  forIdx (cloneEntry dest src) 1024 0
  pure dest

/-- Let the directory `dest` use the table of `src` with index `i`. -/
def linkTable (dest src : Word) (i : BitVec 10) : Prog Unit := modify fun s =>
  s.setDir dest fun x =>
    { x with tables := fun j => if j = i then (s.dir src).tables i else x.tables j
             entries := fun j => if j = i then (s.dir src).entries i else x.entries j }

/-- Copy the kernel stack page `i` of the current directory to `dest`. -/
def copyStack (dest i : Word) : Prog Unit := do
  let _ ← getPageWith kmalloc dest i
  let destAddr ← getPhysicalAddr dest i true false true
  let srcAddr ← getPhysicalAddr (← read (·.currentPageDir)) i false false true
  copyPagePhysical destAddr srcAddr

/-- Give `dest` a copy-on-write clone of the table of `src` with index `i`, if there is one. -/
def cloneUserTable (dest src : Word) (i : BitVec 10) : Prog Unit := do
  let t ← read (fun s => (s.dir src).tables i)
  if t = null then pure ()
  else
    let t' ← cloneTable t
    modify (·.setDir dest fun x => { x with tables := fun j => if j = i then t' else x.tables j })
    let phys ← getPhysicalAddr (← read (·.currentPageDir)) t' false false true
    let e ← read (fun s => (s.dir src).entries i)
    modify (·.setDir dest fun x => { x with entries := fun j =>
      if j = i then { e with addr := (phys >>> 12).setWidth 20 } else x.entries j })

/-- A cleared directory at `d`. -/
def newDirectory (d : Word) : Prog Unit := modify (·.setDir d fun _ => Directory.zero)

/-- The directory at `d` is complete and comes into existence. -/
def addDirectory (d : Word) : Prog Unit := modify fun s => { s with dirs := d :: s.dirs }

def cloneDirectory (src : Word) : Prog Word := do
  let dest ← kmalloc sizeofDirectory 12
  newDirectory dest
  memset dest 0 sizeofDirectory.toNat
  let phys ← getPhysicalAddr (← read (·.currentPageDir)) (dest + 4096) false false true
  modify (·.setDir dest ({ · with phyaddr := phys }))
  let low ← read (·.kernelLowNtable)
  forIdx (linkTable dest src) low 0
  forIdx (linkTable dest src) (heapEndIdx - heapBeginIdx) heapBeginIdx
  forPages (copyStack dest) kernelStackPos loopBound (kernelStackPos - kernelStackSize)
  forIdx (cloneUserTable dest src) (heapBeginIdx - low) low
  addDirectory dest
  pure dest

/-- `Directory_t::enable`. -/
def enable (d : Word) : Prog Unit := modify ({ · with currentPageDir := d })

end Jkos.Page
