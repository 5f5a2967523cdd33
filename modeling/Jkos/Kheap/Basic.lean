import Jkos.Page.Basic

/-!
# Allocation in the kernel heap

`kmalloc` and `get_page` call each other: a page table is allocated in the heap, and the
heap maps the pages of what it allocates. `kmallocAt n` allows `n` nested calls; running
out of them models a recursion that never ends.
-/

namespace Jkos.Kheap

open Page
open Exec (read modify throw)

/-- Run a program of the trees in the kernel. -/
def onHeap {α : Type} (x : Exec Heap Fault α) : Prog α := fun s =>
  ((x s.heap).1, { s with heap := (x s.heap).2 })

/-- The bytes of a word, lowest first. -/
def wordBytes (w : Word) : List Byte :=
  [w.setWidth 8, (w >>> 8).setWidth 8, (w >>> 16).setWidth 8, (w >>> 24).setWidth 8]

/-- The memory image of a `Block_t`. -/
def Block.bytes (b : Block) : List Byte := wordBytes b.start ++ wordBytes b.size

/-- The word with the given bytes, lowest first. -/
def wordOf : List Byte → Word
  | [a, b, c, d] => (d ++ c ++ b ++ a : BitVec (8 + 8 + 8 + 8))
  | _ => 0

/-- The `Block_t` with the given memory image. -/
def Block.ofBytes (vs : List Byte) : Block := ⟨wordOf (vs.take 4), wordOf (vs.drop 4)⟩

def kmallocPreInit (size : Word) (palign : Nat) : Prog Word := do
  let ret ← read (fun s => getAligned s.kheapStaticEnd palign)
  modify (fun s => { s with kheapStaticEnd := ret + size })
  pure ret

/-- `kmalloc`, with the calls to `kmalloc` for page tables as a parameter. -/
def kmallocWith (kmalloc : Word → Nat → Prog Word) (size : Word) (palign : Nat) : Prog Word := do
  if (← read (·.kheapFinishInit)) = false then kmallocPreInit size palign
  else
    let (start, got) ← onHeap (reserve size palign loopBound ⟨0, size + sizeofBlock⟩)
    lazyAllocIntervalWith kmalloc (← read (·.currentPageDir)) (pageOf (start - sizeofBlock))
      (getAligned (start + size) 12) false true false
    store (start - sizeofBlock) got.bytes
    pure start

def kmallocAt : Nat → Word → Nat → Prog Word
  | 0 => fun _ _ => throw .diverge
  | n + 1 => kmallocWith (kmallocAt n)

def kmalloc : Word → Nat → Prog Word := kmallocAt loopBound

def kfree (addr : Word) : Prog Unit := do
  let blk := Block.ofBytes (← load (addr - sizeofBlock) 8)
  let (freeStart, freeEnd) ← onHeap (release addr blk)
  freeInterval (← read (·.currentPageDir)) (getAligned freeStart 12) (pageOf freeEnd)

end Jkos.Kheap
