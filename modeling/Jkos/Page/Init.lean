import Jkos.Common

/-!
# Static memory and the stack of free frames at boot

The part of `Page::init` before paging is switched on: `init_frames` fills the stack of
free frames from the memory map of the boot loader, the page tables and the reference
counts are allocated behind the kernel image, and the frames they cover are dropped again.
The state is what these steps read and write: the end of static memory, the stack, and
which tables the boot directory has.
-/

namespace Jkos.Boot

open Exec (read modify throw)

/-- `Multiboot_mmap_entry_t`. -/
structure MmapEntry where
  addr : BitVec 64
  len : BitVec 64
  /-- `type == MULTIBOOT_MEMORY_AVAILABLE`. -/
  available : Bool
  deriving DecidableEq

/-- What the boot loader and the linker tell the kernel. -/
structure Multiboot where
  mmap : List MmapEntry
  /-- `mod_end` of the first module, if there is one. -/
  modEnd : Option Word
  /-- The address of `kernel_img_end`. -/
  kernelImgEnd : Word

/-- Why `Page::init` does not return. -/
inductive Panic where
  /-- `panic("physical memory too large")`. -/
  | tooLarge
  /-- `frames[nframes - 1]` was read with `nframes = 0`. -/
  | underflow
  /-- A loop that never ends. -/
  | diverge

/-- The state of `Page::init`. The stack of frames is kept with its top first. -/
@[ext] structure State where
  staticEnd : Word
  frames : List Word
  tables : BitVec 10 → Bool

abbrev Prog := Exec State Panic

/-! ## Static memory -/

def preserveMem (addr : Word) : Prog Unit := modify fun s =>
  if addr > s.staticEnd then { s with staticEnd := addr } else s

/-- `kmalloc` before `kheap_finish_init`. -/
def kmalloc (size : Word) (palign : Nat) : Prog Word := do
  let ret ← read (fun s => getAligned s.staticEnd palign)
  modify (fun s => { s with staticEnd := ret + size })
  pure ret

/-- `new uint32_t[n]`. -/
def newArray (n : Word) : Prog Word := kmalloc (4 * n) 0

/-- `get_page(addr, true)` of the boot directory. -/
def getPage (addr : Word) : Prog Unit := do
  let i : BitVec 10 := (addr >>> 22).setWidth 10
  if (← read (·.tables i)) = false then
    let _ ← kmalloc 4096 12
    modify fun s => { s with tables := fun j => if j = i then true else s.tables j }
  else pure ()

/-! ## The stack of frames -/

/-- `mmap->addr + mmap->len`. -/
def MmapEntry.stop (e : MmapEntry) : BitVec 64 := e.addr + e.len

/-- The first loop of `init_frames`: the end of available memory. -/
def memsize : Word → List MmapEntry → Except Panic Word
  | size, [] => .ok size
  | size, e :: es =>
    if e.available then
      if e.addr ≥ 0xFFFFFFFF ∨ e.len ≥ 0xFFFFFFFF ∨ e.stop > 0xFFFFFFFF then .error .tooLarge
      else memsize (if e.stop > size.setWidth 64 then e.stop.setWidth 32 else size) es
    else memsize size es

/-- The first whole frame of a region. -/
def MmapEntry.firstFrame (e : MmapEntry) : Word :=
  let start : Word := e.addr.setWidth 32
  if start ≠ 0 then ((start - 1) >>> 12) + 1 else start

/-- The frame behind the last whole frame of a region. -/
def MmapEntry.endFrame (e : MmapEntry) : Word := e.stop.setWidth 32 >>> 12

/-- `for (i = end - 1; (-- i) >= start; ) if (i > limit) push i; else break;` -/
def pushFrames (limit start : Word) : Nat → Word → List Word → Except Panic (List Word)
  | 0, _, _ => .error .diverge
  | fuel + 1, i, frames =>
    let i := i - 1
    if i ≥ start then
      if i > limit then pushFrames limit start fuel i (i :: frames)
      else .ok frames
    else .ok frames

/-- The second loop of `init_frames`. -/
def pushRegions (limit : Word) : List MmapEntry → List Word → Except Panic (List Word)
  | [], frames => .ok frames
  | e :: es, frames => do
    let frames ← if e.available then
      pushFrames limit e.firstFrame loopBound (e.endFrame - 1) frames else .ok frames
    pushRegions limit es frames

/-- Run a computation that does not depend on the state. -/
def lift {α : Type} (x : Except Panic α) : Prog α := fun s => (x, s)

/-- `init_frames`. -/
def initFrames (mmap : List MmapEntry) : Prog Unit := do
  let size ← lift (memsize 0 mmap)
  let _ ← newArray (size >>> 12)
  let limit ← read (·.staticEnd >>> 12)
  let frames ← lift (pushRegions limit mmap [])
  modify ({ · with frames := frames })

/-! ## `Page::init` -/

/-- `for (uint32_t i = begin; i < stop; i += 0x1000) get_page(i, true);` -/
def mapPages (stop : State → Word) : Nat → Word → Prog Unit
  | 0, _ => throw .diverge
  | fuel + 1, i => do
    if i < (← read stop) then
      getPage i
      mapPages stop fuel (i + 0x1000)
    else pure ()

/-- Static memory starts behind the first module. -/
def preserveModule : Option Word → Prog Unit
  | some modEnd => preserveMem (modEnd + 4)
  | none => pure ()

/-- The beginning of `Page::init`, until `init_frames` returns. -/
def loadMap (m : Multiboot) : Prog Unit := do
  preserveModule m.modEnd
  let _ ← kmalloc 8196 12
  initFrames m.mmap

/-- `frames[0] - frames[nframes - 1] + 1`, if there is a frame. -/
def refCntLength : List Word → Option Word
  | [] => none
  | top :: frames => some ((top :: frames).getLast (by simp) - top + 1)

/-- `frame_ref_cnt = new uint32_t[frames[0] - frames[nframes - 1] + 1]`. -/
def newRefCnt : Prog Unit := do
  match refCntLength (← read (·.frames)) with
  | none => throw .underflow
  | some n =>
    let _ ← newArray n

/-- The allocations that follow `init_frames`: the tables of the kernel heap, the reference
counts, and the tables that map static memory to itself. -/
def allocate : Prog Unit := do
  mapPages (fun _ => kernelHeapEnd) loopBound kernelHeapBegin
  newRefCnt
  mapPages (·.staticEnd) loopBound 0x1000

/-- `while (frames[nframes - 1] <= limit) nframes --;` The word before the array is `phyaddr`
of the boot directory, which is still zero: a loop that finds the stack empty goes on. -/
def dropFrames (limit : Word) : List Word → Except Panic (List Word)
  | [] => .error .underflow
  | f :: frames => if f ≤ limit then dropFrames limit frames else .ok (f :: frames)

/-- Static memory starts behind the kernel image. -/
def start (m : Multiboot) : State := ⟨m.kernelImgEnd + 4, [], fun _ => false⟩

/-- `Page::init` up to the loop that drops frames. -/
def prepare (m : Multiboot) : Prog Unit := do
  loadMap m
  allocate

/-- `Page::init`, until paging is switched on. -/
def init (m : Multiboot) : Prog Unit := do
  prepare m
  let limit ← read (·.staticEnd >>> 12)
  let frames ← lift (dropFrames limit (← read (·.frames)))
  modify ({ · with frames := frames })

end Jkos.Boot
