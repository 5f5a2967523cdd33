import Jkos.Page.Private
import Jkos.Task.Context

/-!
# The kernel with its tasks

The scheduler keeps the tasks and the memory subsystem their directories. A run begins when
`Task::init` returns. Then the current task forks, sleeps, wakes others up or gives the
processor away, reads and writes its memory and its stack, and the kernel takes and returns
memory for its own objects, in any order.
-/

namespace Jkos.Machine

open Exec Kheap Page

/-- The kernel, its tasks, and the memory in use that is not the memory of a task. -/
structure State where
  kernel : Kernel
  live : Multiset Chunk
  tasks : Task.State

/-- The memory of a task. -/
def taskChunk (t : Word) : Chunk := ⟨t, BitVec.ofNat 32 Task.sizeofTask⟩

/-- All memory in use. -/
def State.memory (σ : State) : Multiset Chunk :=
  (σ.tasks.created.map taskChunk : Multiset Chunk) + σ.live

/-- `operator new` for a `Task_t`. -/
def newTaskMemory : Prog Word := kmalloc (BitVec.ofNat 32 Task.sizeofTask) 0

/-- The memory that `new Task_t(Page::clone_directory(Page::current_page_dir))` takes. The
order of the two requests is up to the compiler. -/
def forkMemory (newFirst : Bool) : Prog (Word × Word) := do
  let d ← read (·.currentPageDir)
  if newFirst then
    let child ← newTaskMemory
    let dir ← cloneDirectory d
    pure (child, dir)
  else
    let dir ← cloneDirectory d
    let child ← newTaskMemory
    pure (child, dir)

/-- The addresses of a task: the user range and its kernel stack. -/
def PrivateAddr (s : Kernel) (a : Word) : Prop := UserAddr s a ∨ StackAddr a

/-- One thing that happens, with what it adds to the history of the memories. Pages are set
up as long as there is one directory. -/
inductive Step (σ : State) : List Event → State → Prop
  | fork {newFirst : Bool} {child dir : Word} {regs : Task.Registers} {k : Kernel}
      {t : Task.State} (memory : forkMemory newFirst σ.kernel = (.ok (child, dir), k))
      (run : σ.tasks.step (.fork child dir regs) = some t) :
      Step σ [.fork σ.tasks.currentTask child] ⟨k, σ.live, t⟩
  /-- `schedule`, `sleep` and `wakeup` load the directory of the task that goes on. -/
  | call {op : Task.Op} {t : Task.State} (hop : op.born = []) (run : σ.tasks.step op = some t) :
      Step σ [.switch t.currentTask] ⟨(enable t.currentPageDir σ.kernel).2, σ.live, t⟩
  /-- The kernel works with memory of its own. -/
  | heap {k : Kernel} {live : Multiset Chunk}
      (step : HeapStep ⟨σ.kernel, σ.live⟩ ⟨k, live⟩) : Step σ [] ⟨k, live, σ.tasks⟩
  | read {a eip : Word} {v : Byte} {k : Kernel} (ha : PrivateAddr σ.kernel a)
      (run : readByte a eip σ.kernel = (.ok v, k)) : Step σ [.read a v] ⟨k, σ.live, σ.tasks⟩
  | write {a eip : Word} {v : Byte} {k : Kernel} (ha : PrivateAddr σ.kernel a)
      (run : writeByte a v eip σ.kernel = (.ok (), k)) :
      Step σ [.write a v] ⟨k, σ.live, σ.tasks⟩
  | alloc {a : Word} {p : Slot} {k k' : Kernel}
      (single : σ.kernel.dirs = [σ.kernel.currentPageDir]) (ha : UserAddr σ.kernel a)
      (get : getPageWith kmalloc σ.kernel.currentPageDir a σ.kernel = (.ok p, k))
      (run : Page.alloc p true true k = (.ok (), k')) :
      Step σ (if (k.page p).addr = 0 then
        [.provide (pageContents a (k'.phys (k'.page p).addr))] else []) ⟨k', σ.live, σ.tasks⟩
  | lazyAlloc {a : Word} {p : Slot} {k k' : Kernel}
      (single : σ.kernel.dirs = [σ.kernel.currentPageDir]) (ha : UserAddr σ.kernel a)
      (get : getPageWith kmalloc σ.kernel.currentPageDir a σ.kernel = (.ok p, k))
      (run : Page.lazyAlloc p true true true k = (.ok (), k')) :
      Step σ [.provide (pageContents a fun _ => 0)] ⟨k', σ.live, σ.tasks⟩

/-- What `move_stack` copies to the new stack, byte by byte. -/
abbrev StackWrites : Kernel → Kernel → Prop := Relation.ReflTransGen fun s s' =>
  ∃ a v eip, StackAddr a ∧ writeByte a v eip s = (.ok (), s')

/-- The state in which `Task::init` returns, with the first task. The sentinel of the
registry is a static object, below the heap. -/
inductive Init (g : Layout) : Word → State → Prop
  | intro {s₀ s₁ s₂ s₃ k : Kernel} {first nil : Word} {task : Word → Task.TaskT}
      {nodes : Word → Rbt.Node Task.PairIdTask} {cpu regs : Task.Registers} {t : Task.State}
      (booted : Booted g s₀) (pages : initEmptyPages s₀ = (.ok (), s₁))
      (stack : moveStack s₁ = (.ok (), s₂)) (copy : StackWrites s₂ s₃)
      (new : newTaskMemory s₃ = (.ok first, k))
      (ne_null : nil ≠ null) (even : IsEven nil) (static : nil.toNat < kernelHeapBegin.toNat)
      (run : (Task.State.boot task k.currentPageDir nil nodes cpu).init first regs = some t) :
      Init g first ⟨k, 0, t⟩

/-- Any number of steps. The first task has the memory that it finds. -/
inductive Run (σ₀ : State) : List Event → State → Prop
  | refl : Run σ₀ [.provide (peek σ₀.kernel σ₀.kernel.currentPageDir)] σ₀
  | tail {es es' : List Event} {σ σ' : State} (h : Run σ₀ es σ) (step : Step σ es' σ') :
      Run σ₀ (es' ++ es) σ'

end Jkos.Machine
