import Jkos.Machine.Invariant

/-!
# What tasks can rely on

Whatever the tasks do and in whatever order they take turns, each of them sees its own
memory and its own stack. A new task is a copy of its parent, no access to a kernel stack
ends in a fault, and no call stops the kernel as long as there is memory.
-/

namespace Jkos.Machine

open Exec Kheap Page

variable {g : Layout} {σ₀ σ : State} {s : Kernel} {first child t a eip : Word} {es : List Event}
  {write newFirst : Bool} {live : Multiset Chunk}

/-! ## `fork` -/

/-- In the state `σ'` the task `child` is a copy of the task that is current in `σ`, and
nothing else has changed. -/
structure Twin (σ : State) (child : Word) (regs : Task.Registers) (σ' : State) : Prop where
  fresh : child ∉ σ.tasks.created
  created : σ'.tasks.created = σ.tasks.created ++ [child]
  current : σ'.tasks.currentTask = σ.tasks.currentTask
  par : (σ'.tasks.task child).par = σ.tasks.currentTask
  regs : (σ'.tasks.task child).regs = regs
  uid : (σ'.tasks.task child).uid = (σ.tasks.task σ.tasks.currentTask).uid
  gid : (σ'.tasks.task child).gid = (σ.tasks.task σ.tasks.currentTask).gid
  pid : ∀ t ∈ σ.tasks.created, (σ'.tasks.task t).id = (σ.tasks.task t).id ∧
    (σ'.tasks.task child).id ≠ (σ.tasks.task t).id
  ready : σ'.tasks.InQueue .running child
  memory : ∀ a, PrivateAddr σ.kernel a →
    peek σ'.kernel (σ'.tasks.task child).pageDir a = peek σ.kernel σ.kernel.currentPageDir a
  others : ∀ t ∈ σ.tasks.created, ∀ a, PrivateAddr σ.kernel a →
    peek σ'.kernel (σ'.tasks.task t).pageDir a = peek σ.kernel (σ.tasks.task t).pageDir a

theorem Inv.twin (h : Inv g first es σ) {dir : Word} {k : Kernel}
    (hforked : Forked g σ.memory σ.kernel child dir k) (regs : Task.Registers) :
    ∃ u, σ.tasks.step (.fork child dir regs) = some u ∧ Twin σ child regs ⟨k, σ.live, u⟩ := by
  have halloc := h.allocatable hforked.memories
  have hadm : Task.Op.Admissible σ.tasks (.fork child dir regs) := halloc
  obtain ⟨tr, htasks⟩ := h.tasks
  obtain ⟨ring, hinv⟩ := htasks.inv
  obtain ⟨u, ring', hrun, -⟩ := hinv.step hadm
  obtain ⟨heffect, _, _, _, hchild⟩ := hinv.effect_fork halloc hrun
  have hcreated : u.created = σ.tasks.created ++ [child] := heffect.created
  refine ⟨u, hrun, halloc.notMem, hcreated, (heffect.stays id).1, by rw [hchild], by rw [hchild],
    by rw [hchild], by rw [hchild], fun t ht => ⟨(heffect.kept t ht).id, ?_⟩, ?_, fun a ha => ?_,
    fun t ht a ha => ?_⟩
  · have hlt := hinv.registry.id_lt ht
    rw [← hinv.registry.nextPid] at hlt
    have hid : (u.task child).id = σ.tasks.nextPid := by rw [hchild]
    rw [hid]
    exact fun e => absurd (congrArg BitVec.toNat e) (by omega)
  · refine (htasks.step hadm hrun).inQueue_running_iff.mpr
      ⟨?_, by rw [hchild]⟩
    rw [hcreated]
    exact List.mem_append_right _ (List.mem_singleton_self child)
  · have hdir : (u.task child).pageDir = dir := by rw [hchild]
    rw [hdir]
    exact hforked.copy a ((privateAddr_iff h.memories).mp ha)
  · rw [(heffect.kept t ht).pageDir]
    exact hforked.unseen _ (h.dir_mem ht) a ((privateAddr_iff h.memories).mp ha)

/-! ## A run of the boot kernel -/

/-- The kernel after `move_stack`. -/
@[irreducible] def bootStacked : Kernel :=
  (Page.alloc ⟨0xEFC04000, 1022⟩ false true (getPageFill 0x2E0000 stackPage bootStarted).2).2

/-- With memory for the first task. -/
@[irreducible] def bootFirst : Kernel := (newTaskMemory bootStacked).2

/-- The first task has written to its stack. -/
@[irreducible] def bootMarked : Kernel := (writeByte 0xFFFFE010 7 0 bootFirst).2

/-- With memory for a second task. -/
@[irreducible] def bootSecond : Kernel := (newTaskMemory bootMarked).2

/-- The second task has a copy of the memory of the first. -/
@[irreducible] def bootTwin : Kernel := (cloneFill 0x2E0000 bootSecond).2

/-- The first task has written to its stack again. -/
@[irreducible] def bootApart : Kernel := (writeByte 0xFFFFE010 8 0 bootTwin).2

theorem boot_calls :
    (getPageFill 0x2E0000 stackPage bootStarted).1.toOption = some ⟨0xEFC04000, 1022⟩ ∧
    (Page.alloc ⟨0xEFC04000, 1022⟩ false true
      (getPageFill 0x2E0000 stackPage bootStarted).2).1.toOption = some () ∧
    (newTaskMemory bootStacked).1.toOption = some 0xEFC00008 ∧
    (writeByte 0xFFFFE010 7 0 bootFirst).1.toOption = some () ∧
    (newTaskMemory bootMarked).1.toOption = some 0xEFC0005C ∧
    (cloneFill 0x2E0000 bootSecond).1.toOption = some 0xEFC06000 ∧
    (writeByte 0xFFFFE010 8 0 bootTwin).1.toOption = some () ∧
    bootMarked.currentPageDir = 0x2E0000 := by
  decide +kernel

theorem bootStacked_run : moveStack bootStarted = (.ok (), bootStacked) := by
  rw [moveStack_apply, bootStarted_current, getPageWith_eq_fill, bootStacked,
    bind_ok (eq_ok_of_toOption boot_calls.1)]
  exact eq_ok_of_toOption boot_calls.2.1

theorem boot_init : ∃ t, Init bootLayout 0xEFC00008 ⟨bootFirst, 0, t⟩ ∧
    t.created = [0xEFC00008] := by
  have hnew : newTaskMemory bootStacked = (.ok 0xEFC00008, bootFirst) := by
    rw [bootFirst]
    exact eq_ok_of_toOption boot_calls.2.2.1
  set t₀ := Task.State.boot (fun _ => Task.zeroBoot.task 0) bootFirst.currentPageDir 0x20
    Task.zeroBoot.rbtId2task.mem ⟨0, 0, 0⟩ with ht₀
  have halloc : t₀.Allocatable 0xEFC00008 :=
    ⟨by decide, by decide, fun _ h => (List.not_mem_nil h).elim, .inl (by decide)⟩
  have hne : (0x20 : Word) ≠ null := by decide
  have heven : IsEven 0x20 := by decide
  obtain ⟨t, -, hrun, -⟩ := Task.exists_init _ _ _ _ ⟨0, 0, 0⟩ hne heven halloc
  exact ⟨t, .intro bootKernel_booted bootStarted_run bootStacked_run .refl hnew hne heven
    (by decide) hrun, (Task.init_first hne heven halloc hrun).1⟩

/-- What happens: the first task writes, forks, and writes again to the same place. -/
def bootEvents : List Event :=
  [.write 0xFFFFE010 8, .fork 0xEFC00008 0xEFC0005C, .write 0xFFFFE010 7,
    .provide (peek bootFirst bootFirst.currentPageDir)]

theorem boot_run : ∃ σ₀ σ, Init bootLayout 0xEFC00008 σ₀ ∧ Run σ₀ bootEvents σ ∧
    σ.tasks.created = [0xEFC00008, 0xEFC0005C] := by
  obtain ⟨t, hinit, hcreated⟩ := boot_init
  obtain ⟨-, -, -, hwrite, hnew, hclone, hwrite', hdir⟩ := boot_calls
  have hstack : StackAddr 0xFFFFE010 := (by decide : pageOf 0xFFFFE010 = stackPage)
  have hmark : writeByte 0xFFFFE010 7 0 bootFirst = (.ok (), bootMarked) := by
    rw [bootMarked]
    exact eq_ok_of_toOption hwrite
  have hrun₁ := Run.refl.tail (.write (σ := ⟨bootFirst, 0, t⟩) (.inr hstack) hmark)
  have hinv := hrun₁.inv hinit
  have hcur : t.currentTask = 0xEFC00008 := hinv.shows.cur_eq
  have hmemory : forkMemory true bootMarked = (.ok (0xEFC0005C, 0xEFC06000), bootTwin) := by
    have hchild : newTaskMemory bootMarked = (.ok 0xEFC0005C, bootSecond) := by
      rw [bootSecond]
      exact eq_ok_of_toOption hnew
    have htwin : cloneDirectory 0x2E0000 bootSecond = (.ok 0xEFC06000, bootTwin) := by
      rw [bootTwin, cloneDirectory_eq_fill]
      exact eq_ok_of_toOption hclone
    rw [forkMemory, bind_ok (read_apply _ _), hdir, if_pos rfl, bind_ok hchild, bind_ok htwin]
    rfl
  have hforked := (forkMemory_ends hinv.memories).ok hmemory
  obtain ⟨u, hstep, htwin⟩ := hinv.twin hforked ⟨0, 0, 0⟩
  have hrun₂ := hrun₁.tail (.fork hmemory hstep)
  have hapart : writeByte 0xFFFFE010 8 0 bootTwin = (.ok (), bootApart) := by
    rw [bootApart]
    exact eq_ok_of_toOption hwrite'
  have hrun₃ := hrun₂.tail (.write (σ := ⟨bootTwin, 0, u⟩) (.inr hstack) hapart)
  change Run _ [_, .fork t.currentTask _, _, _] _ at hrun₃
  rw [hcur] at hrun₃
  refine ⟨_, _, hinit, hrun₃, ?_⟩
  exact htwin.created.trans (congrArg (· ++ _) hcreated)

/-! ## Tasks, directories and memory -/

/-- The scheduler and the memory subsystem agree with each other. -/
structure Coupled (σ : State) : Prop where
  tasks : ∃ tr, Task.Run tr σ.tasks
  directories : Set.BijOn (fun t => (σ.tasks.task t).pageDir) {t | t ∈ σ.tasks.created}
    {d | d ∈ σ.kernel.dirs}
  current : σ.kernel.currentPageDir = (σ.tasks.task σ.tasks.currentTask).pageDir
  loaded : σ.tasks.currentPageDir = σ.kernel.currentPageDir
  /-- No two objects have memory in common, whether they are tasks or not. -/
  apart : ∀ x rest, σ.memory = x ::ₘ rest → ∀ y ∈ rest, 0 < x.size.toNat → 0 < y.size.toNat →
    x.ptr.toNat + x.size.toNat ≤ y.ptr.toNat ∨ y.ptr.toNat + y.size.toNat ≤ x.ptr.toNat

theorem Inv.coupled (h : Inv g first es σ) : Coupled σ := by
  refine ⟨h.tasks, ⟨fun t ht => h.dir_mem ht, fun t ht u hu he => h.dir_inj ht hu he,
    fun d hd => ?_⟩, h.current, h.loaded, fun x rest he y hy hpos hpos' => ?_⟩
  · have hd : d ∈ σ.kernel.dirs := hd
    rw [h.dirs, List.mem_reverse] at hd
    obtain ⟨t, ht, rfl⟩ := List.mem_map.mp hd
    exact ⟨t, ht, rfl⟩
  · obtain ⟨F, own, hown⟩ := h.memories.owned
    rw [he] at hown
    exact hown.apart hy hpos hpos'

/-- In every state each task has its directory and each directory its task, and the
processor uses that of the current task. -/
theorem run_coupled (hinit : Init g first σ₀) (hrun : Run σ₀ es σ) : Coupled σ :=
  (hrun.inv hinit).coupled

theorem run_coupled_boot : ∃ σ₀ σ, Run σ₀ bootEvents σ ∧ Coupled σ := by
  obtain ⟨σ₀, σ, hinit, hrun, -⟩ := boot_run
  exact ⟨σ₀, σ, hrun, run_coupled hinit hrun⟩

/-! ## Private memories -/

/-- Every read returned, and every task would read, what the history says: its own last
write, or what its parent had there when it forked. -/
structure Isolated (first : Word) (es : List Event) (σ : State) : Prop where
  reads : Forks.Faithful first es
  shows : ∀ t ∈ σ.tasks.created, ∀ a, PrivateAddr σ.kernel a →
    peek σ.kernel (σ.tasks.task t).pageDir a = Forks.value first es t a

theorem run_isolated (hinit : Init g first σ₀) (hrun : Run σ₀ es σ) : Isolated first es σ := by
  have hinv := hrun.inv hinit
  refine ⟨hinv.shows.faithful, fun t ht a ha => ?_⟩
  exact hinv.shows.shows t ht a ((privateAddr_iff hinv.memories).mp ha)

/-- The child still sees what the parent had written when it forked. -/
theorem run_isolated_boot : ∃ σ₀ σ, Run σ₀ bootEvents σ ∧
    peek σ.kernel (σ.tasks.task 0xEFC00008).pageDir 0xFFFFE010 = some 8 ∧
    peek σ.kernel (σ.tasks.task 0xEFC0005C).pageDir 0xFFFFE010 = some 7 := by
  obtain ⟨σ₀, σ, hinit, hrun, hcreated⟩ := boot_run
  have hiso := run_isolated hinit hrun
  have hstack : StackAddr 0xFFFFE010 := (by decide : pageOf 0xFFFFE010 = stackPage)
  refine ⟨σ₀, σ, hrun, ?_, ?_⟩
  · rw [hiso.shows _ (by simp [hcreated]) _ (.inr hstack)]
    rfl
  · rw [hiso.shows _ (by simp [hcreated]) _ (.inr hstack)]
    rfl

/-! ## Kernel stacks -/

/-- Whichever task the processor is given to, the kernel can use the stack of this task
without a fault, and nobody else can. -/
structure StacksReady (σ : State) : Prop where
  pages : ∀ t ∈ σ.tasks.created, ∃ q,
    lookup σ.kernel (σ.tasks.task t).pageDir stackPage = some q ∧
    (σ.kernel.page q).present = true ∧ (σ.kernel.page q).rw = true ∧
    (σ.kernel.page q).user = false ∧ σ.kernel.frameRefCnt (σ.kernel.page q).addr = 1
  access : ∀ t ∈ σ.tasks.created, ∀ a write eip, StackAddr a → eip < σ.kernel.kernelCodeEnd →
    ∃ f, Page.access a write eip (enable (σ.tasks.task t).pageDir σ.kernel).2 =
      (.ok f, (enable (σ.tasks.task t).pageDir σ.kernel).2)
  guarded : ∀ t ∈ σ.tasks.created, ∀ a write eip, StackAddr a →
    σ.kernel.kernelCodeEnd ≤ eip →
    Page.access a write eip (enable (σ.tasks.task t).pageDir σ.kernel).2 =
      (.error (.pageFault a (errCodeOf true write true)),
        (enable (σ.tasks.task t).pageDir σ.kernel).2)

theorem Inv.stacksReady (h : Inv g first es σ) : StacksReady σ := by
  refine ⟨fun t ht => ?_, fun t ht a write eip ha heip => ?_, fun t ht a write eip ha heip => ?_⟩
  · have hmem := h.memories
    obtain ⟨q, hq⟩ := hmem.stack _ (h.dir_mem ht)
    have hedit := hq.own.editable hmem.linked
    exact ⟨q, hq.lookup, (hmem.sound.shaped q hedit).1.mpr hq.entry.held, hq.entry.rw,
      hq.entry.user, hmem.sound.exclusive trivial q hedit hq.entry.held (.inl hq.entry.rw)⟩
  · have hmem := h.memories.enable (h.dir_mem ht)
    obtain ⟨q, hq⟩ := hmem.stack _ hmem.linked.current
    exact ⟨_, hmem.stack_access hq ha heip⟩
  · exact (h.memories.enable (h.dir_mem ht)).stack_guarded ha heip

theorem run_stacksReady (hinit : Init g first σ₀) (hrun : Run σ₀ es σ) : StacksReady σ :=
  (hrun.inv hinit).stacksReady

theorem run_stacksReady_boot : ∃ σ₀ σ, Run σ₀ bootEvents σ ∧ StacksReady σ := by
  obtain ⟨σ₀, σ, hinit, hrun, -⟩ := boot_run
  exact ⟨σ₀, σ, hrun, run_stacksReady hinit hrun⟩

/-! ## Copies -/

/-- In every state a fork makes a copy of the current task, unless memory is exhausted. -/
theorem run_fork (hinit : Init g first σ₀) (hrun : Run σ₀ es σ) (newFirst : Bool)
    (regs : Task.Registers) :
    Ends (forkMemory newFirst) σ.kernel
      (fun r k => ∃ u, σ.tasks.step (.fork r.1 r.2 regs) = some u ∧
        Twin σ r.1 regs ⟨k, σ.live, u⟩)
      (fun e _ => e.Exhausted) := by
  have hinv := hrun.inv hinit
  exact (forkMemory_ends hinv.memories).mono (fun _ _ hforked => hinv.twin hforked regs)
    (fun _ _ he => he)

theorem run_fork_boot : ∃ σ₀ σ, Run σ₀ bootEvents σ ∧
    Ends (forkMemory true) σ.kernel
      (fun r k => ∃ u, σ.tasks.step (.fork r.1 r.2 ⟨0, 0, 0⟩) = some u ∧
        Twin σ r.1 ⟨0, 0, 0⟩ ⟨k, σ.live, u⟩)
      (fun e _ => e.Exhausted) := by
  obtain ⟨σ₀, σ, hinit, hrun, -⟩ := boot_run
  exact ⟨σ₀, σ, hrun, run_fork hinit hrun true ⟨0, 0, 0⟩⟩

/-! ## Progress -/

/-- The other calls return, and memory that a task has been given can be used. -/
structure Progress (σ : State) : Prop where
  call : ∀ op : Task.Op, op.born = [] → ∃ u, σ.tasks.step op = some u
  access : ∀ a write eip, PrivateAddr σ.kernel a →
    (StackAddr a → eip < σ.kernel.kernelCodeEnd) →
    peek σ.kernel σ.kernel.currentPageDir a ≠ none →
    Ends (Page.access a write eip) σ.kernel (fun _ _ => True) (fun e _ => e = .noFreeFrame)
  kmalloc : ∀ (size : Word) palign, size.toNat + 8 < 2 ^ 32 → palign ≤ 22 →
    Ends (Kheap.kmalloc size palign) σ.kernel (fun _ _ => True) (fun e _ => e.Exhausted)
  kfree : ∀ x ∈ σ.live, Ends (Kheap.kfree x.ptr) σ.kernel (fun _ _ => True)
    (fun e _ => e = .outOfNodes)

theorem Inv.progress (h : Inv g first es σ) : Progress σ := by
  have hmem := h.memories
  obtain ⟨F, own, hown⟩ := hmem.owned
  refine ⟨fun op hop => ?_, fun a write eip ha heip hsome => ?_,
    fun size palign hsize hpalign => ?_, fun x hx => ?_⟩
  · obtain ⟨tr, htasks⟩ := h.tasks
    obtain ⟨ring, hinv⟩ := htasks.inv
    have hadm : op.Admissible σ.tasks := by
      cases op with
      | fork => cases hop
      | _ => trivial
    obtain ⟨u, -, hrun, -⟩ := hinv.step hadm
    exact ⟨u, hrun⟩
  · rcases (privateAddr_iff hmem).mp ha with ha | ha
    · exact hmem.toSpaces.access_ends ha hsome
    · obtain ⟨q, hq⟩ := hmem.stack _ hmem.linked.current
      exact .of_ok (hmem.stack_access hq ha (heip ha)) trivial
  · exact (kmalloc_ends hown.valid hsize hpalign).mono (fun _ _ _ => trivial) (fun _ _ he => he)
  · have hmemory : x ∈ σ.memory := Multiset.mem_add.mpr (.inr hx)
    obtain ⟨rest, hrest⟩ := Multiset.exists_cons_of_mem hmemory
    rw [hrest] at hown
    exact (kfree_ends hown.valid hown.allocated).mono (fun _ _ _ => trivial) (fun _ _ he => he)

theorem run_progress (hinit : Init g first σ₀) (hrun : Run σ₀ es σ) : Progress σ :=
  (hrun.inv hinit).progress

theorem run_progress_boot : ∃ σ₀ σ, Run σ₀ bootEvents σ ∧ Progress σ := by
  obtain ⟨σ₀, σ, hinit, hrun, -⟩ := boot_run
  exact ⟨σ₀, σ, hrun, run_progress hinit hrun⟩

end Jkos.Machine
