import Jkos.Rbt.Refine

/-!
# Tasks, task queues and the scheduler

The model of `task.cpp`. A task control block is a record at an address, the three
queues are rings through `queue_next` and `queue_prev`, and the registry
`rbt_id2task` is a red-black tree whose nodes live inside the tasks. An operation
returns `none` when it follows a null pointer, fails a `kassert` or does not
terminate.

The machine is visible through the registers at the moment of a call: they are
parameters, because the running code changes them freely. `read_eip` returning
`0xFFFFFFFF` after a switch only makes the interrupted call return, so an operation
ends with its switch. `move_stack`, `switch_to_user_mode` and the interrupt flag
are left out.
-/

namespace Jkos.Task

/-- `esp`, `ebp` and `eip` as `schedule`, `sleep` and `fork` save them. -/
structure Registers where
  esp : Word
  ebp : Word
  eip : Word
  deriving DecidableEq

/-- `Task_state_t`. -/
inductive TaskState where
  | running
  | sleeping
  | zombie
  deriving DecidableEq

/-- The three objects of `namespace Queue`. -/
inductive Queue where
  | running
  | sleeping
  | zombie
  deriving DecidableEq

/-- The queue that a state names. -/
def TaskState.queue : TaskState → Queue
  | .running => .running
  | .sleeping => .sleeping
  | .zombie => .zombie

/-- `Pair_id_task`, ordered by `id` alone. -/
structure PairIdTask where
  id : Word
  task : Word
  deriving DecidableEq

instance : LT PairIdTask := ⟨fun a b => a.id < b.id⟩

instance : DecidableLT PairIdTask := fun a b => inferInstanceAs (Decidable (a.id < b.id))

instance : Rbt.StrictWeakOrder PairIdTask where
  irrefl a := BitVec.lt_irrefl a.id
  trans _ _ _ := BitVec.lt_trans
  negTrans a b c hab hbc := by
    change ¬ a.id < b.id at hab
    change ¬ b.id < c.id at hbc
    change ¬ a.id < c.id
    rw [BitVec.lt_def] at *
    omega

/-- `Task_t`; `sig_wakeup` is the one word of a `Sigset`. -/
structure TaskT where
  id : Word
  regs : Registers
  pageDir : Word
  state : TaskState
  uid : Word
  gid : Word
  errno : Int
  par : Word
  queueNext : Word
  queuePrev : Word
  sigWakeup : Word

/-- The static variables of `task.cpp`, the tasks in memory, the registers that the
last switch loaded, and the tasks constructed so far (ghost data, never read). -/
structure State where
  task : Word → TaskT
  queue : Queue → Word
  currentTask : Word
  currentPageDir : Word
  rbtId2task : Rbt.State PairIdTask
  latestTask : Word
  nextPid : Word
  cpu : Registers
  created : List Word

/-- `sizeof(Task_t)`, padding included. -/
def sizeofTask : Nat := 76

/-- The offset of `rbt_node_mem` in a `Task_t`. -/
def rbtNodeMem : Word := 52

def ESRCH : Int := 3

def EPERM : Int := 1

/-- `User::cap_test`, whose only capability is `CAP_KILL`. -/
def capTest (uid : Word) : Bool := uid == 0

namespace State

/-- Update the task at `p` in place. -/
def modify (s : State) (p : Word) (f : TaskT → TaskT) : State :=
  { s with task := fun q => if q = p then f (s.task p) else s.task q }

def setQueue (s : State) (q : Queue) (p : Word) : State :=
  { s with queue := fun q' => if q' = q then p else s.queue q' }

def setNext (s : State) (t p : Word) : State := s.modify t ({ · with queueNext := p })

def setPrev (s : State) (t p : Word) : State := s.modify t ({ · with queuePrev := p })

/-! ## Task queues -/

/-- `Task_queue::insert` on the queue `q`. -/
def insertQueue (s : State) (q : Queue) (task : Word) : State :=
  if s.queue q = null then
    let s := s.setQueue q task
    (s.setNext task task).setPrev task task
  else
    let ptr := s.queue q
    let s := s.setNext task (s.task ptr).queueNext
    let s := s.setPrev (s.task task).queueNext task
    let s := s.setNext ptr task
    s.setPrev task ptr

/-- `Task_queue::remove` on the queue `q`. -/
def removeQueue (s : State) (q : Queue) (task : Word) : Option State :=
  let ptr := s.queue q
  if ptr = null then none
  else if (s.task ptr).queueNext = ptr then
    if ptr = task then some (s.setQueue q null) else none
  else
    let s := if ptr = task then s.setQueue q (s.task ptr).queueNext else s
    let s := s.setNext (s.task task).queuePrev (s.task task).queueNext
    let s := s.setPrev (s.task task).queueNext (s.task task).queuePrev
    some ((s.setNext task null).setPrev task null)

/-! ## The registry -/

/-- `id2task`: `null` when the registry has no key that is not less. -/
def id2task (s : State) (pid : Word) : Option Word :=
  (s.rbtId2task.findGe ⟨pid, null⟩).map
    (fun ptr => if ptr = null then null else (s.rbtId2task.mem ptr).key.task)

/-- The loop of `get_next_pid`. -/
def skipPids : Nat → State → Option State
  | 0, _ => none
  | fuel + 1, s =>
    match s.id2task s.nextPid with
    | none => none
    | some t => if t = null then some s else skipPids fuel { s with nextPid := s.nextPid + 1 }

def getNextPid (s : State) : Option (State × Word) :=
  (skipPids loopBound s).map (fun s => ({ s with nextPid := s.nextPid + 1 }, s.nextPid))

/-- `Task_t::rbt_alloc` for the task that was constructed last. -/
def rbtAlloc (s : State) : Word :=
  let addr := s.latestTask + rbtNodeMem
  addr + (addr &&& 1)

/-- The constructor `Task_t::Task_t` at the address `this`; `uid` and `gid` keep
what the memory held. -/
def newTask (s : State) (this dir : Word) : Option State :=
  match s.getNextPid with
  | none => none
  | some (s, id) =>
    let s := s.modify this (fun t =>
      { id := id, regs := ⟨0, 0, 0⟩, pageDir := dir, state := .running, uid := t.uid, gid := t.gid,
        errno := 0, par := null, queueNext := null, queuePrev := null, sigWakeup := 0 })
    let s := { s with latestTask := this, created := s.created ++ [this] }
    (s.rbtId2task.insert s.rbtAlloc ⟨id, this⟩).map (fun r => { s with rbtId2task := r })

/-! ## Scheduling -/

def getNextTask (s : State) : Word := (s.task s.currentTask).queueNext

/-- `switch_task`, up to the jump into the task `t`. -/
def switchTask (s : State) (t : Word) : State :=
  { s with currentTask := t, cpu := (s.task t).regs, currentPageDir := (s.task t).pageDir }

def setErrno (s : State) (errno : Int) : State := s.modify s.currentTask ({ · with errno := errno })

def schedule (s : State) (regs : Registers) : State :=
  let s := s.modify s.currentTask ({ · with regs := regs })
  s.switchTask s.getNextTask

/-- `fork` as the parent sees it, where `child` is the memory of the new task and
`dir` the directory that `clone_directory` returns. -/
def fork (s : State) (child dir : Word) (regs : Registers) : Option (State × Word) :=
  let parTask := s.currentTask
  match s.newTask child dir with
  | none => none
  | some s =>
    let s := s.modify child (fun t =>
      { t with par := parTask, uid := (s.task parTask).uid, gid := (s.task parTask).gid })
    let s := s.insertQueue .running child
    let s := s.modify child ({ · with regs := regs })
    some (s, (s.task child).id)

/-- `GET_TASK_BY_ID_NOZOMBIE` and `CHECK_PERM`: the target, or the error number. -/
def checkTarget (s : State) (pid : Word) : Option (Except Int Word) :=
  match s.id2task pid with
  | none => none
  | some target =>
    if target = null ∨ (s.task target).state = .zombie then some (.error ESRCH)
    else if (s.task target).uid ≠ (s.task s.currentTask).uid ∧
        capTest (s.task s.currentTask).uid = false then some (.error EPERM)
    else some (.ok target)

def sleep (s : State) (pid sigWakeup : Word) (regs : Registers) : Option (State × Int) :=
  match s.checkTarget pid with
  | none => none
  | some (.error errno) => some (s.setErrno errno, -1)
  | some (.ok target) =>
    if (s.task target).state = .running then
      let next := s.getNextTask
      match s.removeQueue .running target with
      | none => none
      | some s =>
        let s := s.insertQueue .sleeping target
        let s := s.modify target ({ · with state := .sleeping, sigWakeup := sigWakeup })
        if target = s.currentTask then
          let s := s.modify s.currentTask ({ · with regs := regs })
          some (s.switchTask next, 0)
        else some (s, 0)
    else some (s, 0)

def wakeup (s : State) (pid : Word) : Option (State × Int) :=
  match s.checkTarget pid with
  | none => none
  | some (.error errno) => some (s.setErrno errno, -1)
  | some (.ok target) =>
    if (s.task target).state = .sleeping then
      match s.removeQueue .sleeping target with
      | none => none
      | some s =>
        let s := s.insertQueue .running target
        some (s.modify target ({ · with state := .running }), 0)
    else some (s, 0)

/-- The state before `Task::init`: static variables are zero, the registry is
constructed, and memory holds anything. -/
def boot (task : Word → TaskT) (dir nil : Word) (mem : Word → Rbt.Node PairIdTask)
    (cpu : Registers) : State :=
  { task := task, queue := fun _ => null, currentTask := null, currentPageDir := dir
    rbtId2task := Rbt.State.new nil mem, latestTask := null, nextPid := 0, cpu := cpu
    created := [] }

/-- `Task::init` with the memory of the first task. -/
def init (s : State) (this : Word) (regs : Registers) : Option State :=
  match s.newTask this s.currentPageDir with
  | none => none
  | some s =>
    let s := { s with currentTask := this }
    let s := s.modify this ({ · with uid := 0, gid := 0 })
    let s := s.insertQueue .running this
    some (s.schedule regs)

end State

/-! ## Histories -/

/-- One call by the current task, or a timer tick. -/
inductive Op where
  | fork (child dir : Word) (regs : Registers)
  | sleep (pid sigWakeup : Word) (regs : Registers)
  | wakeup (pid : Word)
  | schedule (regs : Registers)
  deriving DecidableEq

def State.step (s : State) : Op → Option State
  | .fork child dir regs => (s.fork child dir regs).map Prod.fst
  | .sleep pid sig regs => (s.sleep pid sig regs).map Prod.fst
  | .wakeup pid => (s.wakeup pid).map Prod.fst
  | .schedule regs => some (s.schedule regs)

/-- What `operator new` promises about the memory of a task: it neither wraps nor
overlaps a living task or the sentinel of the registry. -/
structure State.Allocatable (s : State) (this : Word) : Prop where
  ne_null : this ≠ null
  fits : this.toNat + sizeofTask ≤ 2 ^ 32
  apart : ∀ t ∈ s.created, this.toNat + sizeofTask ≤ t.toNat ∨ t.toNat + sizeofTask ≤ this.toNat
  sentinel : s.rbtId2task.nil.toNat < this.toNat ∨
    this.toNat + sizeofTask ≤ s.rbtId2task.nil.toNat

/-- The memory that an operation is given is allocatable. -/
def Op.Admissible (s : State) : Op → Prop
  | .fork child _ _ => s.Allocatable child
  | _ => True

/-- `Run tr s`: `Task::init` followed by the steps of `tr` leads to `s`. The last step
comes first, and every step is listed with the state it was made in. -/
inductive Run : List (State × Op) → State → Prop
  | init {task : Word → TaskT} {dir nil : Word} {mem : Word → Rbt.Node PairIdTask}
      {cpu regs : Registers} {this : Word} {s : State} (hne : nil ≠ null) (heven : IsEven nil)
      (ha : (State.boot task dir nil mem cpu).Allocatable this)
      (h : (State.boot task dir nil mem cpu).init this regs = some s) : Run [] s
  | step {tr : List (State × Op)} {s s' : State} {op : Op} (hs : Run tr s)
      (hop : op.Admissible s) (h : s.step op = some s') : Run ((s, op) :: tr) s'

end Jkos.Task
