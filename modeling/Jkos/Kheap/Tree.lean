import Jkos.Common
import Jkos.Rbt.Refine

/-!
# The free blocks of the kernel heap

The part of `kheap.cpp` that works on the two search trees of free blocks and on the
pool `Tree_mm` that provides their nodes. `reserve` is the search loop of `kmalloc`
with the cutting of the block it found, `release` the checks and merges of `kfree`;
both functions continue with page-table operations, which are modelled with paging.
-/

namespace Jkos.Kheap

open Exec (read modify throw)

/-- `Block_t`. -/
structure Block where
  start : Word
  size : Word
  deriving DecidableEq

/-- `sizeof(Block_t)`. -/
def sizeofBlock : Word := 8

/-- `Block_size_t`: blocks ordered by size, then by start. -/
structure BlockSize extends Block
  deriving DecidableEq

/-- `Block_start_t`: blocks ordered by start, then by size. -/
structure BlockStart extends Block
  deriving DecidableEq

instance : LT BlockSize :=
  ⟨fun a b => a.size < b.size ∨ (a.size = b.size ∧ a.start < b.start)⟩

instance : DecidableLT BlockSize := fun a b =>
  inferInstanceAs (Decidable (a.size < b.size ∨ (a.size = b.size ∧ a.start < b.start)))

instance : LT BlockStart :=
  ⟨fun a b => a.start < b.start ∨ (a.start = b.start ∧ a.size < b.size)⟩

instance : DecidableLT BlockStart := fun a b =>
  inferInstanceAs (Decidable (a.start < b.start ∨ (a.start = b.start ∧ a.size < b.size)))

instance : LE BlockStart :=
  ⟨fun a b => a.start < b.start ∨ (a.start = b.start ∧ a.size ≤ b.size)⟩

instance : DecidableLE BlockStart := fun a b =>
  inferInstanceAs (Decidable (a.start < b.start ∨ (a.start = b.start ∧ a.size ≤ b.size)))

/-- `TREE_NODE_SIZE`. -/
def treeNodeSize : Nat := 20

/-- `STATIC_MEM_SIZE`, the memory for `STATIC_SIZE = 1024` nodes. -/
def staticMemSize : Nat := 1024 * treeNodeSize

/-- The variables of `Tree_mm`; `freed` is the stack of returned nodes, top first. -/
structure Pool where
  staticMem : Word
  nstaticMem : Nat
  freed : List Word

/-- `Tree_mm::alloc`. -/
def Pool.alloc (p : Pool) : Except Fault (Word × Pool) :=
  match p.freed with
  | ptr :: freed => .ok (ptr, { p with freed := freed })
  | [] =>
    if p.nstaticMem + treeNodeSize ≥ staticMemSize then .error .outOfNodes
    else .ok (p.staticMem + BitVec.ofNat 32 p.nstaticMem,
      { p with nstaticMem := p.nstaticMem + treeNodeSize })

/-- `Tree_mm::free`. -/
def Pool.free (p : Pool) (ptr : Word) : Pool := { p with freed := ptr :: p.freed }

/-- The two trees and the pool that they share. -/
structure Heap where
  treeSize : Rbt.State BlockSize
  treeStart : Rbt.State BlockStart
  pool : Pool

/-- One of the two trees of the heap. -/
structure TreeRef (Key : Type) where
  get : Heap → Rbt.State Key
  set : Heap → Rbt.State Key → Heap

/-- `tree_size`. -/
def treeSize : TreeRef BlockSize := ⟨Heap.treeSize, fun h t => { h with treeSize := t }⟩

/-- `tree_start`. -/
def treeStart : TreeRef BlockStart := ⟨Heap.treeStart, fun h t => { h with treeStart := t }⟩

namespace TreeRef

variable {Key : Type} (T : TreeRef Key)

/-- `insert`, with a node from the pool. -/
def insert [LT Key] [DecidableLT Key] (val : Key) : Exec Heap Fault Unit := fun h =>
  match h.pool.alloc with
  | .error e => (.error e, h)
  | .ok (a, pool) =>
    match (T.get h).insert a val with
    | none => (.error .diverge, h)
    | some t => (.ok (), T.set { h with pool := pool } t)

/-- `erase`, with the node given back to the pool. -/
def erase (ptr : Word) : Exec Heap Fault Unit := fun h =>
  match (T.get h).erase ptr with
  | none => (.error .diverge, h)
  | some (t, none) => (.ok (), T.set h t)
  | some (t, some freed) => (.ok (), T.set { h with pool := h.pool.free freed } t)

def findGe [LT Key] [DecidableLT Key] (val : Key) : Exec Heap Fault Word := fun h =>
  match (T.get h).findGe val with
  | none => (.error .diverge, h)
  | some p => (.ok p, h)

def findLe [LE Key] [DecidableLE Key] (val : Key) : Exec Heap Fault Word := fun h =>
  match (T.get h).findLe val with
  | none => (.error .diverge, h)
  | some p => (.ok p, h)

/-- `get_key` of a node. -/
def getKey (ptr : Word) : Exec Heap Fault Key := read (fun h => ((T.get h).mem ptr).key)

end TreeRef

/-- Put a free block into both trees, as `kmalloc` does. -/
def insertFree (b : Block) : Exec Heap Fault Unit := do
  treeSize.insert ⟨b⟩
  treeStart.insert ⟨b⟩

/-- Cut off what `kmalloc` does not need behind the allocation. -/
def cutTail (start size : Word) (got : Block) : Exec Heap Fault Block :=
  if start + size + sizeofBlock * 2 < got.start + got.size then do
    let nblk : Block := ⟨start + size, got.start + got.size - (start + size)⟩
    insertFree nblk
    pure { got with size := got.size - nblk.size }
  else pure got

/-- Cut off what `kmalloc` does not need before the header. -/
def cutFront (start : Word) (got : Block) : Exec Heap Fault Block :=
  if start - got.start > sizeofBlock * 3 then do
    let nblk : Block := ⟨got.start, start - got.start - sizeofBlock⟩
    insertFree nblk
    pure ⟨got.start + nblk.size, got.size - nblk.size⟩
  else pure got

/-- The loop of `kmalloc`: the address to return and the block to record for it. -/
def reserve (size : Word) (palign : Nat) : Nat → Block → Exec Heap Fault (Word × Block)
  | 0, _ => throw .diverge
  | fuel + 1, req => do
    let ptr ← treeSize.findGe ⟨req⟩
    if ptr = null then throw .outOfMemory
    else
      let got := (← treeSize.getKey ptr).toBlock
      let start := getAligned (got.start + sizeofBlock) palign
      if start + size > got.start + got.size then
        reserve size palign fuel { got with start := got.start + 1 }
      else
        treeSize.erase ptr
        treeStart.erase (← treeStart.findGe ⟨got⟩)
        let got ← cutTail start size got
        let got ← cutFront start got
        pure (start, got)

/-- The first merge of `kfree`: with the block that ends where `blk` starts. Returns the
merged block and the beginning of the range of pages to free. -/
def mergeBefore (addr : Word) (blk : Block) : Exec Heap Fault (Block × Word) := do
  let ptr ← treeStart.findLe ⟨blk⟩
  if ptr = null then pure (blk, blk.start)
  else
    let got := (← treeStart.getKey ptr).toBlock
    if got.start + got.size > blk.start then throw (.invalidFree addr)
    else if got.start + got.size = blk.start then
      treeStart.erase ptr
      treeSize.erase (← treeSize.findGe ⟨got⟩)
      pure (⟨got.start, blk.size + got.size⟩, Word.max (pageOf blk.start) got.start)
    else pure (blk, blk.start)

/-- The second merge of `kfree`: with the block that starts where `blk` ends. Returns the
merged block and the end of the range of pages to free. -/
def mergeAfter (addr : Word) (blk : Block) (freeEnd : Word) : Exec Heap Fault (Block × Word) := do
  let ptr ← treeStart.findGe ⟨blk⟩
  if ptr = null then pure (blk, freeEnd)
  else
    let got := (← treeStart.getKey ptr).toBlock
    if blk.start + blk.size > got.start then throw (.invalidFree addr)
    else if blk.start + blk.size = got.start then
      treeStart.erase ptr
      treeSize.erase (← treeSize.findGe ⟨got⟩)
      pure (⟨blk.start, blk.size + got.size⟩,
        Word.min (getAligned freeEnd 12) (blk.start + blk.size))
    else pure (blk, freeEnd)

/-- `kfree` of a block with the header `blk`, up to the freeing of pages; returns the
range `[free_start, free_end)`. -/
def release (addr : Word) (blk : Block) : Exec Heap Fault (Word × Word) :=
  if blk.start < kernelHeapBegin ∨ blk.start + blk.size > kernelHeapEnd then
    throw (.invalidFree addr)
  else do
    let (merged, freeStart) ← mergeBefore addr blk
    let (merged, freeEnd) ← mergeAfter addr merged (blk.start + blk.size)
    treeStart.insert ⟨merged⟩
    treeSize.insert ⟨merged⟩
    pure (freeStart, freeEnd)

/-- What `kheap_init` puts into the trees. -/
def initTrees : Exec Heap Fault Unit :=
  insertFree ⟨kernelHeapBegin, kernelHeapEnd - kernelHeapBegin⟩

end Jkos.Kheap
