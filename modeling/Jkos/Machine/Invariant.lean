import Jkos.Machine.Basic

/-!
# Tasks and their directories

In every state that the kernel reaches each task has a directory of its own, the processor
uses the one of the current task, and the memory of a task is apart from all other memory in
use. So the scheduler by itself goes through one of its own runs.
-/

namespace Jkos.Page

open Exec Kheap

variable {g : Layout} {s s' : Kernel} {F own : Multiset Block} {live live' : Multiset Chunk}
  {x y : Chunk}

/-! ## Memory in use -/

/-- Memory in use is in the heap. -/
theorem Owned.heap_bounds (h : Owned g F live own s) (hx : x ∈ live) :
    kernelHeapBegin.toNat ≤ x.ptr.toNat ∧ x.ptr.toNat + x.size.toNat ≤ kernelHeapEnd.toNat := by
  have hlive := h.chunks x hx
  have hhead := hlive.header
  have hpay := hlive.payload
  have hlo := hlive.proper.lo
  have hhi := hlive.proper.hi
  rw [kernelHeapBegin_eq, kernelHeapEnd_eq]
  rw [Block.stop] at hpay
  change 0xEFC00000 ≤ _ ∧ _ ≤ 0xFFC00000
  omega

/-- Memory in use for one object is apart from that for all others. -/
theorem Owned.apart (h : Owned g F (x ::ₘ live) own s) (hy : y ∈ live) (hpos : 0 < x.size.toNat)
    (hpos' : 0 < y.size.toNat) :
    x.ptr.toNat + x.size.toNat ≤ y.ptr.toNat ∨ y.ptr.toNat + y.size.toNat ≤ x.ptr.toNat := by
  by_contra hover
  rw [not_or, Nat.not_le, Nat.not_le] at hover
  have hx := h.chunks x (Multiset.mem_cons_self x live)
  have hy' := h.chunks y (Multiset.mem_cons_of_mem hy)
  have hxhead := hx.header
  have hxpay := hx.payload
  have hyhead := hy'.header
  have hypay := hy'.payload
  set a := max x.ptr.toNat y.ptr.toNat with ha
  have hxa : (recorded s x.ptr).start.toNat ≤ a ∧ a < (recorded s x.ptr).stop := by omega
  have hya : (recorded s y.ptr).start.toNat ≤ a ∧ a < (recorded s y.ptr).stop := by omega
  -- the greater of the two pointers would have two owners
  have hpos : 0 < depthOf (blocks s live) a :=
    depthOf_pos_of_mem (Multiset.mem_map_of_mem _ hy) hya.1 hya.2
  have hle := h.depth_le_one a
  rw [blocks, Multiset.map_cons, depthOf_cons, ← blocks,
    Cover.Span.at_of_mem (a := (recorded s x.ptr).span) hxa] at hle
  omega

theorem InLivePage.add {a : Word} (h : InLivePage s live a) (rest : Multiset Chunk) :
    InLivePage s (rest + live) a := by
  obtain ⟨y, hlo, hhi, hpos⟩ := h
  refine ⟨y, hlo, hhi, ?_⟩
  rw [blocks, Multiset.map_add, ← blocks, ← blocks]
  simp only [depthOf, Multiset.map_add, Cover.depth_add] at hpos ⊢
  omega

/-- Work on the heap goes on in the same way beside other memory in use. -/
theorem HeapStep.frame (h : HeapStep ⟨s, live⟩ ⟨s', live'⟩) (rest : Multiset Chunk) :
    HeapStep ⟨s, rest + live⟩ ⟨s', rest + live'⟩ := by
  cases h with
  | kmalloc hsize hpalign run =>
      rw [Multiset.add_cons]
      exact .kmalloc hsize hpalign run
  | kfree run =>
      rw [Multiset.add_cons]
      exact .kfree run
  | write hx lower upper heip run =>
      exact .write (Multiset.mem_add.mpr (.inr hx)) lower upper heip run
  | read page heip run => exact .read (page.add rest) heip run

namespace Memories

/-- No process sees what the kernel does with the heap. -/
theorem heap (h : Memories g live s) (hstep : HeapStep ⟨s, live⟩ ⟨s', live'⟩) :
    Memories g live' s' ∧ SameEnv s s' ∧ s'.dirs = s.dirs ∧ Unseen g s s' := by
  obtain ⟨F, own, hown⟩ := h.owned
  obtain ⟨F', hown'⟩ := hstep.owned hown
  have hl := h.linked
  have hkernel : ∀ {a}, HeapAddr a → ({g.slot a} : Set Slot) ⊆ g.kernelSlots := by
    rintro a ha _ rfl
    exact (hl.lookup_heap hl.current ha).2
  have htouched : ∀ {a}, HeapAddr a → Touch g True {g.slot a} s s' →
      Memories g live' s' ∧ SameEnv s s' ∧ s'.dirs = s.dirs ∧ Unseen g s s' := by
    intro a ha ht
    have hheap : s'.heap = s.heap := (congrArg Kernel.heap ht.work.rest :)
    refine h.kernelSteps ht.work.steps (hkernel ha) ?_ ⟨F', own, hown'⟩
    rw [hheap]
    exact ht.work.rest
  cases hstep with
  | kmalloc hsize hpalign run =>
      obtain ⟨F₁, got, hm⟩ := (kmalloc_ends hown.valid hsize hpalign).ok run
      exact h.kernelSteps hm.steps subset_rfl hm.rest ⟨F', own, hown'⟩
  | kfree run =>
      obtain ⟨F₁, lo, hi, hf⟩ := (kfree_ends hown.valid hown.allocated).ok run
      exact h.kernelSteps hf.steps subset_rfl hf.rest ⟨F', own, hown'⟩
  | write hx lower upper heip run =>
      have hlive := hown.chunks _ hx
      obtain ⟨ha, -⟩ := hlive.heapAddr (Nat.le_trans (Nat.sub_le _ 8) lower) upper
      exact htouched ha ((hown.write_ends hx lower upper heip _).ok run).1
  | read page heip run =>
      exact htouched (hown.inLivePage page).1 ((hown.read_ends page heip).ok run).1

end Memories

end Jkos.Page

namespace Jkos.Machine

open Exec Kheap Page

variable {g : Layout} {σ σ' : State} {s s' k : Kernel} {live : Multiset Chunk} {newFirst : Bool}
  {first child dir a b t : Word} {es es' : List Event}

/-! ## Memory for a new task -/

/-- A new task has memory and a directory that shows what the current one shows. -/
structure Forked (g : Layout) (live : Multiset Chunk) (s : Kernel) (child dir : Word)
    (s' : Kernel) : Prop where
  memories : Memories g (taskChunk child ::ₘ live) s'
  current : s'.currentPageDir = s.currentPageDir
  fresh : dir ∉ s.dirs
  dirs : s'.dirs = dir :: s.dirs
  copy : ∀ a, g.Private a → peek s' dir a = peek s s.currentPageDir a
  unseen : Unseen g s s'

theorem newTaskMemory_ends (h : Memories g live s) :
    Ends newTaskMemory s (fun p s' => Memories g (taskChunk p ::ₘ live) s' ∧ SameEnv s s' ∧
      s'.dirs = s.dirs ∧ Unseen g s s') (fun e _ => e.Exhausted) := by
  obtain ⟨F, own, hown⟩ := h.owned
  refine (kmalloc_ends hown.valid (by decide) (Nat.zero_le 22)).runs.mono ?_ (fun _ _ he => he)
  intro p s' hrun
  exact h.heap (.kmalloc (by decide) (Nat.zero_le 22) hrun)

theorem cloneDirectory_returns (h : Memories g live s) :
    Ends (cloneDirectory s.currentPageDir) s
      (fun dir s' => cloneDirectory s.currentPageDir s = (.ok dir, s'))
      (fun e _ => e.Exhausted) := by
  obtain ⟨F, hrunning⟩ := h.running
  exact (cloneDirectory_ends hrunning h.linked.current).runs

/-- In both orders. -/
theorem forkMemory_ends (h : Memories g live s) :
    Ends (forkMemory newFirst) s (fun r s' => Forked g live s r.1 r.2 s')
      (fun e _ => e.Exhausted) := by
  rw [forkMemory, Ends.bind_read]
  cases newFirst with
  | true =>
      refine Ends.bind (newTaskMemory_ends h) ?_
      rintro child s₁ ⟨h₁, henv, hdirs, hunseen⟩
      rw [← henv.current]
      refine Ends.bind (cloneDirectory_returns h₁) ?_
      rintro dir s₂ hrun
      obtain ⟨h₂, hcur, hfresh, hdirs₂, hcopy, hunseen₂⟩ := h₁.fork hrun
      rw [hdirs] at hfresh hdirs₂
      refine .of_ok rfl ⟨h₂, hcur.trans henv.current, hfresh, hdirs₂, fun a ha => ?_,
        fun d hd b hb => ?_⟩
      · rw [hcopy a ha, henv.current]
        exact hunseen _ h.linked.current a ha
      · rw [hunseen₂ d (hdirs ▸ hd) b hb]
        exact hunseen d hd b hb
  | false =>
      refine Ends.bind (cloneDirectory_returns h) ?_
      rintro dir s₁ hrun
      obtain ⟨h₁, hcur, hfresh, hdirs, hcopy, hunseen⟩ := h.fork hrun
      refine Ends.bind (newTaskMemory_ends h₁) ?_
      rintro child s₂ ⟨h₂, henv, hdirs₂, hunseen₂⟩
      have hold : ∀ d ∈ s.dirs, d ∈ s₁.dirs := fun d hd => by
        rw [hdirs]
        exact List.mem_cons_of_mem _ hd
      refine .of_ok rfl ⟨h₂, henv.current.trans hcur, hfresh, hdirs₂.trans hdirs, fun a ha => ?_,
        fun d hd b hb => ?_⟩
      · rw [← hcopy a ha]
        exact hunseen₂ dir (by rw [hdirs]; exact List.mem_cons_self) a ha
      · rw [hunseen₂ d (hold d hd) b hb]
        exact hunseen d hd b hb

/-! ## The invariant -/

variable (g) in
/-- What the tasks show agrees with the history, which began with the task `first`. -/
abbrev Shows (first : Word) (es : List Event) (σ : State) : Prop :=
  Forks.Agrees first {a | g.Private a} es σ.tasks.currentTask {t | t ∈ σ.tasks.created}
    fun t => peek σ.kernel (σ.tasks.task t).pageDir

/-- Tasks and directories belong together. -/
structure Inv (g : Layout) (first : Word) (es : List Event) (σ : State) : Prop where
  memories : Memories g σ.memory σ.kernel
  tasks : ∃ tr, Task.Run tr σ.tasks
  dirs : σ.kernel.dirs = (σ.tasks.created.map fun t => (σ.tasks.task t).pageDir).reverse
  nodup : σ.kernel.dirs.Nodup
  current : σ.kernel.currentPageDir = (σ.tasks.task σ.tasks.currentTask).pageDir
  loaded : σ.tasks.currentPageDir = σ.kernel.currentPageDir
  sentinel : σ.tasks.rbtId2task.nil.toNat < kernelHeapBegin.toNat
  shows : Shows g first es σ

theorem privateAddr_iff (h : Memories g live s) : PrivateAddr s a ↔ g.Private a := by
  rw [PrivateAddr, h.toSpaces.userAddr_iff, Layout.Private]

namespace Inv

theorem dir_mem (h : Inv g first es σ) (ht : t ∈ σ.tasks.created) :
    (σ.tasks.task t).pageDir ∈ σ.kernel.dirs := by
  rw [h.dirs, List.mem_reverse]
  exact List.mem_map_of_mem ht

theorem dir_inj (h : Inv g first es σ) {t' : Word} (ht : t ∈ σ.tasks.created)
    (ht' : t' ∈ σ.tasks.created) (he : (σ.tasks.task t).pageDir = (σ.tasks.task t').pageDir) :
    t = t' := by
  have hnodup := h.nodup
  rw [h.dirs, List.nodup_reverse] at hnodup
  exact List.inj_on_of_nodup_map hnodup ht ht' he

theorem current_mem (h : Inv g first es σ) : σ.tasks.currentTask ∈ σ.tasks.created :=
  h.shows.cur_mem

/-- The memory of a new task is apart from those of the others and from the sentinel. -/
theorem allocatable (h : Inv g first es σ)
    (hnew : Memories g (taskChunk child ::ₘ σ.memory) s') : σ.tasks.Allocatable child := by
  obtain ⟨F, own, hown⟩ := hnew.owned
  obtain ⟨hlo, hhi⟩ := hown.heap_bounds (Multiset.mem_cons_self _ _)
  have hsize : ∀ t, (taskChunk t).size.toNat = Task.sizeofTask := fun _ => rfl
  have hptr : ∀ t, (taskChunk t).ptr = t := fun _ => rfl
  have hend : kernelHeapEnd.toNat ≤ 2 ^ 32 := by decide
  have hbegin : 0 < kernelHeapBegin.toNat := by decide
  have hsentinel := h.sentinel
  rw [hsize, hptr] at hhi
  rw [hptr] at hlo
  refine ⟨fun e => ?_, by omega, fun t ht => ?_, .inl (by omega)⟩
  · rw [e] at hlo
    change _ ≤ 0 at hlo
    omega
  · have hmem : taskChunk t ∈ σ.memory :=
      Multiset.mem_add.mpr (.inl (Multiset.mem_coe.mpr (List.mem_map_of_mem ht)))
    have hpos : ∀ t, 0 < (taskChunk t).size.toNat := fun t => by
      rw [hsize]
      decide
    exact hown.apart hmem (hpos child) (hpos t)

/-- A fork of the current task. -/
theorem fork (h : Inv g first es σ) {regs : Task.Registers} {u : Task.State}
    (hmem : forkMemory newFirst σ.kernel = (.ok (child, dir), k))
    (hrun : σ.tasks.step (.fork child dir regs) = some u) :
    Inv g first (.fork σ.tasks.currentTask child :: es) ⟨k, σ.live, u⟩ := by
  have hforked := (forkMemory_ends h.memories).ok hmem
  have halloc : Task.Op.Admissible σ.tasks (.fork child dir regs) :=
    h.allocatable hforked.memories
  obtain ⟨tr, htasks⟩ := h.tasks
  obtain ⟨ring, hinv⟩ := htasks.inv
  obtain ⟨heffect, _, _, _, hchild⟩ := hinv.effect_fork halloc hrun
  have hcreated : u.created = σ.tasks.created ++ [child] := heffect.created
  have hpageDir : (u.task child).pageDir = dir := by rw [hchild]
  obtain ⟨hcur, -, hload⟩ := heffect.stays id
  have hold : ∀ t ∈ σ.tasks.created, (u.task t).pageDir = (σ.tasks.task t).pageDir :=
    fun t ht => (heffect.kept t ht).pageDir
  have hdirs : k.dirs = (u.created.map fun t => (u.task t).pageDir).reverse := by
    rw [hforked.dirs, h.dirs, hcreated, List.map_append, List.map_singleton, hpageDir,
      List.reverse_append, List.map_congr_left hold]
    rfl
  have hlive : {t | t ∈ u.created} = insert child {t | t ∈ σ.tasks.created} := by
    ext t
    simp [hcreated, or_comm]
  refine ⟨?_, ⟨_, htasks.step halloc hrun⟩, hdirs, ?_, ?_, ?_, ?_, ?_⟩
  · have hmemory : (⟨k, σ.live, u⟩ : State).memory = taskChunk child ::ₘ σ.memory := by
      rw [State.memory, State.memory, hcreated, List.map_append, ← Multiset.coe_add,
        add_right_comm, add_comm]
      rfl
    rw [hmemory]
    exact hforked.memories
  · rw [hforked.dirs]
    exact List.nodup_cons.mpr ⟨hforked.fresh, h.nodup⟩
  · rw [hforked.current, hcur, hold _ h.current_mem]
    exact h.current
  · rw [hload, hforked.current]
    exact h.loaded
  · rw [heffect.sentinel]
    exact h.sentinel
  · rw [Shows, hcur, hlive]
    refine h.shows.fork h.current_mem (Task.State.Allocatable.notMem halloc)
      (fun a ha => ?_) fun t ht a ha => ?_
    · rw [hpageDir, hforked.copy a ha, h.current]
    · rw [hold t ht]
      exact hforked.unseen _ (h.dir_mem ht) a ha

/-- A call of the scheduler. -/
theorem call (h : Inv g first es σ) {op : Task.Op} {u : Task.State} (hop : op.born = [])
    (hrun : σ.tasks.step op = some u) : Inv g first (.switch u.currentTask :: es)
      ⟨(enable u.currentPageDir σ.kernel).2, σ.live, u⟩ := by
  obtain ⟨tr, htasks⟩ := h.tasks
  obtain ⟨ring, hinv⟩ := htasks.inv
  have hadm : op.Admissible σ.tasks := by
    cases op with
    | fork => cases hop
    | _ => trivial
  have heffect := hinv.effect hadm hrun
  have htasks' := htasks.step hadm hrun
  obtain ⟨ring', hinv'⟩ := htasks'.inv
  have hcreated : u.created = σ.tasks.created := by
    rw [heffect.created, hop, List.append_nil]
  have hcur := hinv'.current
  rw [hcreated] at hcur
  have hold : ∀ t ∈ σ.tasks.created, (u.task t).pageDir = (σ.tasks.task t).pageDir :=
    fun t ht => (heffect.kept t ht).pageDir
  have hload : u.currentPageDir = (u.task u.currentTask).pageDir := by
    by_cases hsw : σ.tasks.Switches op
    · exact (heffect.loads hsw).2
    · obtain ⟨he, -, hdir⟩ := heffect.stays hsw
      rw [hdir, h.loaded, h.current, he, hold _ h.current_mem]
  have hmem : u.currentPageDir ∈ σ.kernel.dirs := by
    rw [hload, hold _ hcur]
    exact h.dir_mem hcur
  refine ⟨?_, ⟨_, htasks'⟩, ?_, h.nodup, hload, rfl, ?_, ?_⟩
  · rw [State.memory, hcreated]
    exact h.memories.enable hmem
  · rw [hcreated, List.map_congr_left hold]
    exact h.dirs
  · rw [heffect.sentinel]
    exact h.sentinel
  · rw [Shows, hcreated]
    refine (h.shows.switch hcur).keep fun t ht a ha => ?_
    rw [hold t ht]
    rfl

/-- What happens while the current task stays. -/
theorem work (h : Inv g first es σ) (hmem : Memories g (⟨k, live, σ.tasks⟩ : State).memory k)
    (hcur : k.currentPageDir = σ.kernel.currentPageDir) (hdirs : k.dirs = σ.kernel.dirs)
    (hshows : Shows g first es' ⟨k, live, σ.tasks⟩) : Inv g first es' ⟨k, live, σ.tasks⟩ :=
  ⟨hmem, h.tasks, hdirs.trans h.dirs, hdirs ▸ h.nodup, hcur.trans h.current,
    h.loaded.trans hcur.symm, h.sentinel, hshows⟩

theorem heap (h : Inv g first es σ) (hstep : HeapStep ⟨σ.kernel, σ.live⟩ ⟨k, live⟩) :
    Inv g first es ⟨k, live, σ.tasks⟩ := by
  obtain ⟨hmem, henv, hdirs, hunseen⟩ := h.memories.heap (hstep.frame _)
  refine h.work hmem henv.current hdirs (h.shows.keep fun t ht a ha => ?_)
  exact hunseen _ (h.dir_mem ht) a ha

theorem read (h : Inv g first es σ) {eip : Word} {v : Byte} (ha : g.Private a)
    (hrun : readByte a eip σ.kernel = (.ok v, k)) :
    Inv g first (.read a v :: es) ⟨k, σ.live, σ.tasks⟩ := by
  obtain ⟨hmem, hcur, hdirs, hv, hunseen⟩ := h.memories.readByte ha hrun
  rw [h.current] at hv
  refine h.work hmem hcur hdirs ((h.shows.read ha hv).keep fun t ht b hb => ?_)
  exact hunseen _ (h.dir_mem ht) b hb

theorem write (h : Inv g first es σ) {eip : Word} {v : Byte} (ha : g.Private a)
    (hrun : writeByte a v eip σ.kernel = (.ok (), k)) :
    Inv g first (.write a v :: es) ⟨k, σ.live, σ.tasks⟩ := by
  obtain ⟨hmem, hcur, hdirs, hself, hother⟩ := h.memories.writeByte ha hrun
  rw [h.current] at hself
  refine h.work hmem hcur hdirs (h.shows.write hself fun t ht b hb hne => ?_)
  refine hother _ (h.dir_mem ht) b hb fun he => hne (h.dir_inj ht h.current_mem ?_)
  rw [he, h.current]

/-- With one directory there is one task. -/
theorem only (h : Inv g first es σ) (hsingle : σ.kernel.dirs = [σ.kernel.currentPageDir])
    (ht : t ∈ σ.tasks.created) : t = σ.tasks.currentTask := by
  have hmem := h.dir_mem ht
  rw [hsingle, List.mem_singleton, h.current] at hmem
  exact h.dir_inj ht h.current_mem hmem

theorem getPage (h : Inv g first es σ) {p : Slot} (ha : g.User (tbIdx a))
    (hget : getPageWith kmalloc σ.kernel.currentPageDir a σ.kernel = (.ok p, k)) :
    Inv g first es ⟨k, σ.live, σ.tasks⟩ ∧ lookup k k.currentPageDir a = some p ∧
      k.currentPageDir = σ.kernel.currentPageDir ∧ k.dirs = σ.kernel.dirs := by
  obtain ⟨hmem, hcur, hdirs, hlook, hunseen⟩ := h.memories.getPage hget ha
  refine ⟨h.work hmem hcur hdirs (h.shows.keep fun t ht b hb => ?_), ?_, hcur, hdirs⟩
  · exact hunseen _ (h.dir_mem ht) b hb
  · rw [hcur]
    exact hlook

/-- A page of the only task gets contents. -/
theorem provide (h : Inv g first es σ) (hsingle : σ.kernel.dirs = [σ.kernel.currentPageDir])
    (hmem : Memories g (⟨k, live, σ.tasks⟩ : State).memory k)
    (hcur : k.currentPageDir = σ.kernel.currentPageDir) (hdirs : k.dirs = σ.kernel.dirs)
    {contents : Word → Option Byte} (hshow : ∀ b, g.Private b →
      peek k σ.kernel.currentPageDir b =
        (contents b).or (peek σ.kernel σ.kernel.currentPageDir b)) :
    Inv g first (.provide contents :: es) ⟨k, live, σ.tasks⟩ := by
  rw [h.current] at hshow
  refine h.work hmem hcur hdirs (h.shows.provide hshow fun t ht hne => ?_)
  exact absurd (h.only hsingle ht) hne

end Inv

/-- What one step preserves. -/
theorem Step.inv (h : Step σ es' σ') (hσ : Inv g first es σ) : Inv g first (es' ++ es) σ' := by
  cases h with
  | fork memory run => exact hσ.fork memory run
  | call hop run => exact hσ.call hop run
  | heap step => exact hσ.heap step
  | read ha run => exact hσ.read ((privateAddr_iff hσ.memories).mp ha) run
  | write ha run => exact hσ.write ((privateAddr_iff hσ.memories).mp ha) run
  | @alloc a p k k' single ha get run =>
      rw [hσ.memories.toSpaces.userAddr_iff] at ha
      obtain ⟨hk, hlook, hcur, hdirs⟩ := hσ.getPage ha get
      have hsingle : k.dirs = [k.currentPageDir] := by rw [hdirs, hcur, single]
      obtain ⟨hmem, hcur', hdirs', hheld, hshow⟩ := hk.memories.alloc hlook ha hsingle run
      split
      · exact hk.provide hsingle hmem hcur' hdirs' hshow
      · next hzero =>
          refine hk.work hmem hcur' hdirs' (hk.shows.keep fun t ht b hb => ?_)
          exact hheld hzero _ (hk.dir_mem ht) b hb
  | @lazyAlloc a p k k' single ha get run =>
      rw [hσ.memories.toSpaces.userAddr_iff] at ha
      obtain ⟨hk, hlook, hcur, hdirs⟩ := hσ.getPage ha get
      have hsingle : k.dirs = [k.currentPageDir] := by rw [hdirs, hcur, single]
      obtain ⟨hmem, hcur', hdirs', hshow⟩ := hk.memories.lazyAlloc hlook ha hsingle run
      exact hk.provide hsingle hmem hcur' hdirs' hshow

/-! ## The beginning -/

theorem StackWrites.memories (h : StackWrites s s') (hs : Memories g live s) :
    Memories g live s' ∧ s'.currentPageDir = s.currentPageDir ∧ s'.dirs = s.dirs := by
  induction h with
  | refl => exact ⟨hs, rfl, rfl⟩
  | tail _ hstep ih =>
      obtain ⟨h₁, hcur₁, hdirs₁⟩ := ih
      obtain ⟨a, v, eip, ha, hrun⟩ := hstep
      obtain ⟨h₂, hcur₂, hdirs₂, -⟩ := h₁.writeByte (.inr ha) hrun
      exact ⟨h₂, hcur₂.trans hcur₁, hdirs₂.trans hdirs₁⟩

/-- The memories when the first task is about to be made. -/
theorem moveStack_memories {s₀ s₁ s₂ : Kernel} (hboot : Booted g s₀)
    (hpages : initEmptyPages s₀ = (.ok (), s₁)) (hstack : moveStack s₁ = (.ok (), s₂)) :
    Memories g 0 s₂ ∧ s₂.dirs = [s₂.currentPageDir] := by
  obtain ⟨hstart, hdirs, hdir, -⟩ := (initEmptyPages_ends hboot).ok hpages
  obtain ⟨hspaces, -⟩ := hboot.spaces hpages
  have hcur := hspaces.linked.current
  rw [hdirs, hboot.dirs, List.mem_singleton] at hcur
  have hsingle : s₁.dirs = [s₁.currentPageDir] := by rw [hdirs, hboot.dirs, hcur]
  have hnull : (s₁.dir s₁.currentPageDir).tables 1023 = null := by
    rw [hdir, hcur]
    exact hboot.user 1023 hspaces.linked.stack_own.1
  obtain ⟨hmem, hcur₂, hdirs₂, -⟩ := hspaces.moveStack hstart.owned hsingle hnull hstack
  exact ⟨hmem, by rw [hdirs₂, hcur₂, hsingle]⟩

theorem Init.inv (h : Init g first σ) :
    Inv g first [.provide (peek σ.kernel σ.kernel.currentPageDir)] σ := by
  obtain @⟨s₀, s₁, s₂, s₃, k, first, nil, task, nodes, cpu, regs, t, hboot, hpages, hstack, hcopy,
    hnew, hne, heven, hstatic, hrun⟩ := h
  obtain ⟨h₂, hsingle₂⟩ := moveStack_memories hboot hpages hstack
  obtain ⟨h₃, hcur₃, hdirs₃⟩ := hcopy.memories h₂
  obtain ⟨hk, henv, hdirs, -⟩ := (newTaskMemory_ends h₃).ok hnew
  have hsingle : k.dirs = [k.currentPageDir] := by
    rw [hdirs, hdirs₃, hsingle₂, henv.current, hcur₃]
  obtain ⟨F, own, hown⟩ := hk.owned
  obtain ⟨hlo, hhi⟩ := hown.heap_bounds (Multiset.mem_cons_self _ _)
  change _ ≤ first.toNat at hlo
  change first.toNat + Task.sizeofTask ≤ _ at hhi
  have hend : kernelHeapEnd.toNat ≤ 2 ^ 32 := by decide
  have hbegin : 0 < kernelHeapBegin.toNat := by decide
  have halloc : (Task.State.boot task k.currentPageDir nil nodes cpu).Allocatable first := by
    refine ⟨fun e => ?_, by omega, fun u hu => (List.not_mem_nil hu).elim, .inl ?_⟩
    · rw [e] at hlo
      change _ ≤ 0 at hlo
      omega
    · change nil.toNat < _
      omega
  obtain ⟨hcreated, -, hload, -, -, -, -, hpageDir, hnil⟩ :=
    Task.init_first hne heven halloc hrun
  have htasks : Task.Run [] t := .init hne heven halloc hrun
  obtain ⟨ring, hinv⟩ := htasks.inv
  have hcur : t.currentTask = first := by
    have := hinv.current
    rwa [hcreated, List.mem_singleton] at this
  refine ⟨?_, ⟨_, htasks⟩, ?_, ?_, ?_, ?_, ?_, ⟨hcur, ?_, trivial, fun u hu a ha => ?_⟩⟩
  · rw [State.memory, hcreated]
    exact hk
  · rw [hsingle, hcreated, List.map_singleton, hpageDir]
    rfl
  · rw [hsingle]
    exact List.nodup_singleton _
  · rw [hcur, hpageDir]
  · rw [hload, hcur, hpageDir]
  · rw [hnil]
    exact hstatic
  · rw [hcur, hcreated]
    exact List.mem_singleton_self first
  · have hu : u ∈ t.created := hu
    rw [hcreated, List.mem_singleton] at hu
    rw [hu, hpageDir, Forks.value]
    exact ((if_pos rfl).trans Option.or_none).symm

/-- What every run preserves. -/
theorem Run.inv {σ₀ : State} (h : Run σ₀ es σ) (hinit : Init g first σ₀) : Inv g first es σ := by
  induction h with
  | refl => exact hinit.inv
  | tail _ step ih => exact step.inv ih

end Jkos.Machine
