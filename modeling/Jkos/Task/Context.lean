import Jkos.Task.Fair

/-!
# What a task keeps

A switch saves the registers of one task and loads those of another, and everything else a
task has stays with it: its directory, its parent, its user and group. So a task resumes
with exactly what it had when it last gave the processor away, and the tasks form a tree
that only grows.
-/

namespace Jkos.Task

variable {s s' s'' : State} {ring : Queue → Cycle Word} {q : Queue} {t task : Word} {op : Op}
  {tr : List (State × Op)}

/-! ## The effect of one operation -/

/-- At most the links, the states and the signals that tasks wait for differ. -/
structure Requeued (s s' : State) : Prop where
  task : ∀ t, ∃ next prev state sig, s'.task t = { s.task t with
    queueNext := next, queuePrev := prev, state := state, sigWakeup := sig }
  currentTask : s'.currentTask = s.currentTask
  currentPageDir : s'.currentPageDir = s.currentPageDir
  cpu : s'.cpu = s.cpu
  created : s'.created = s.created
  rbtId2task : s'.rbtId2task = s.rbtId2task

theorem Requeued.refl (s : State) : Requeued s s :=
  ⟨fun _ => ⟨_, _, _, _, rfl⟩, rfl, rfl, rfl, rfl, rfl⟩

theorem Requeued.trans (h : Requeued s s') (h' : Requeued s' s'') : Requeued s s'' := by
  refine ⟨fun t => ?_, h'.currentTask.trans h.currentTask,
    h'.currentPageDir.trans h.currentPageDir, h'.cpu.trans h.cpu, h'.created.trans h.created,
    h'.rbtId2task.trans h.rbtId2task⟩
  obtain ⟨_, _, _, _, e⟩ := h.task t
  obtain ⟨n, p, st, sig, e'⟩ := h'.task t
  exact ⟨n, p, st, sig, by rw [e', e]⟩

theorem requeued_modify (s : State) (p : Word) {f : TaskT → TaskT}
    (hf : ∀ x : TaskT, ∃ next prev state sig, f x = { x with
      queueNext := next, queuePrev := prev, state := state, sigWakeup := sig }) :
    Requeued s (s.modify p f) := by
  refine ⟨fun x => ?_, rfl, rfl, rfl, rfl, rfl⟩
  rw [State.task_modify]
  split
  · next hx =>
      rw [hx]
      exact hf (s.task p)
  · exact ⟨_, _, _, _, rfl⟩

theorem requeued_setNext (s : State) (t p : Word) : Requeued s (s.setNext t p) :=
  requeued_modify s t fun _ => ⟨_, _, _, _, rfl⟩

theorem requeued_setPrev (s : State) (t p : Word) : Requeued s (s.setPrev t p) :=
  requeued_modify s t fun _ => ⟨_, _, _, _, rfl⟩

theorem requeued_setQueue (s : State) (q : Queue) (p : Word) : Requeued s (s.setQueue q p) :=
  ⟨fun _ => ⟨_, _, _, _, rfl⟩, rfl, rfl, rfl, rfl, rfl⟩

theorem requeued_insertQueue (s : State) (q : Queue) (task : Word) :
    Requeued s (s.insertQueue q task) := by
  rw [State.insertQueue]
  split
  · exact ((requeued_setQueue s q task).trans (requeued_setNext ..)).trans (requeued_setPrev ..)
  · exact (((requeued_setNext s ..).trans (requeued_setPrev ..)).trans
      (requeued_setNext ..)).trans (requeued_setPrev ..)

theorem requeued_removeQueue (h : s.removeQueue q task = some s') : Requeued s s' := by
  simp only [State.removeQueue] at h
  split at h
  · cases h
  · split at h
    · split at h
      · cases h
        exact requeued_setQueue ..
      · cases h
    · cases h
      refine ((((?_ : Requeued s _).trans (requeued_setNext ..)).trans
        (requeued_setPrev ..)).trans (requeued_setNext ..)).trans (requeued_setPrev ..)
      split
      · exact requeued_setQueue ..
      · exact .refl s

/-- The task whose registers the operation saves, with these registers. -/
def State.saves (s : State) : Op → Option (Word × Registers)
  | .fork child _ regs => some (child, regs)
  | .sleep pid sig regs =>
    if s.Switches (.sleep pid sig regs) then some (s.currentTask, regs) else none
  | .wakeup _ => none
  | .schedule regs => some (s.currentTask, regs)

/-- The task that the operation brings into being. -/
def Op.born : Op → List Word
  | .fork child _ _ => [child]
  | _ => []

/-- What an operation leaves to a task. -/
structure Kept (s s' : State) (op : Op) (t : Word) : Prop where
  id : (s'.task t).id = (s.task t).id
  pageDir : (s'.task t).pageDir = (s.task t).pageDir
  uid : (s'.task t).uid = (s.task t).uid
  gid : (s'.task t).gid = (s.task t).gid
  par : (s'.task t).par = (s.task t).par
  regs : (∀ regs, s.saves op ≠ some (t, regs)) → (s'.task t).regs = (s.task t).regs
  saved : ∀ regs, s.saves op = some (t, regs) → (s'.task t).regs = regs
  errno : (s'.task t).errno = (s.task t).errno ∨ (t = s.currentTask ∧
    ∃ pid, s.checkTarget pid = some (.error (s'.task t).errno))

/-- What an operation does to the tasks there are, and to the processor. -/
structure Effect (s s' : State) (op : Op) : Prop where
  kept : ∀ t ∈ s.created, Kept s s' op t
  created : s'.created = s.created ++ op.born
  stays : ¬ s.Switches op → s'.currentTask = s.currentTask ∧ s'.cpu = s.cpu ∧
    s'.currentPageDir = s.currentPageDir
  loads : s.Switches op → s'.cpu = (s'.task s'.currentTask).regs ∧
    s'.currentPageDir = (s'.task s'.currentTask).pageDir
  sentinel : s'.rbtId2task.nil = s.rbtId2task.nil

theorem effect_requeued (h : Requeued s s') (hsaves : s.saves op = none) (hborn : op.born = [])
    (hop : ¬ s.Switches op) : Effect s s' op := by
  refine ⟨fun t _ => ?_, by rw [hborn, h.created, List.append_nil],
    fun _ => ⟨h.currentTask, h.cpu, h.currentPageDir⟩, fun hsw => absurd hsw hop,
    congrArg Rbt.State.nil h.rbtId2task⟩
  obtain ⟨_, _, _, _, e⟩ := h.task t
  refine ⟨by rw [e], by rw [e], by rw [e], by rw [e], by rw [e], fun _ => by rw [e],
    fun regs hr => ?_, .inl (by rw [e])⟩
  cases hsaves.symm.trans hr

theorem effect_setErrno {pid : Word} {errno : Int}
    (hcheck : s.checkTarget pid = some (.error errno)) (hsaves : s.saves op = none)
    (hborn : op.born = []) (hop : ¬ s.Switches op) : Effect s (s.setErrno errno) op := by
  refine ⟨fun t _ => ?_, by rw [hborn, List.append_nil]; rfl, fun _ => ⟨rfl, rfl, rfl⟩,
    fun hsw => absurd hsw hop, rfl⟩
  have hnone : ∀ regs, s.saves op ≠ some (t, regs) := fun regs hr => by
    cases hsaves.symm.trans hr
  rcases eq_or_ne t s.currentTask with rfl | ht
  · have e : (s.setErrno errno).task s.currentTask =
        { s.task s.currentTask with errno := errno } := if_pos rfl
    refine ⟨by rw [e], by rw [e], by rw [e], by rw [e], by rw [e], fun _ => by rw [e],
      fun regs hr => absurd hr (hnone regs), .inr ⟨rfl, pid, ?_⟩⟩
    rw [e, hcheck]
  · have e : (s.setErrno errno).task t = s.task t := if_neg ht
    exact ⟨by rw [e], by rw [e], by rw [e], by rw [e], by rw [e], fun _ => by rw [e],
      fun regs hr => absurd hr (hnone regs), .inl (by rw [e])⟩

/-- The registers of the current task are saved and those of another one loaded. -/
theorem effect_switch {s₁ : State} {regs : Registers} (next : Word) (h : Requeued s s₁)
    (hsaves : s.saves op = some (s.currentTask, regs)) (hborn : op.born = [])
    (hop : s.Switches op) :
    Effect s ((s₁.modify s₁.currentTask ({ · with regs := regs })).switchTask next) op := by
  refine ⟨fun t _ => ?_, by rw [hborn, List.append_nil]; exact h.created,
    fun hsw => absurd hop hsw, fun _ => ⟨rfl, rfl⟩, congrArg Rbt.State.nil h.rbtId2task⟩
  obtain ⟨n, p, st, sig, e⟩ := h.task t
  have hcur := h.currentTask
  rcases eq_or_ne t s.currentTask with rfl | ht
  · have e' : ((s₁.modify s₁.currentTask ({ · with regs := regs })).switchTask next).task
        s.currentTask = { s₁.task s.currentTask with regs := regs } := by
      rw [← hcur]
      exact if_pos rfl
    rw [e] at e'
    refine ⟨by rw [e'], by rw [e'], by rw [e'], by rw [e'], by rw [e'],
      fun hne => absurd hsaves (hne regs), fun regs' hr => ?_, .inl (by rw [e'])⟩
    cases hsaves.symm.trans hr
    rw [e']
  · have e' : ((s₁.modify s₁.currentTask ({ · with regs := regs })).switchTask next).task t =
        s₁.task t := if_neg (hcur ▸ ht)
    rw [e] at e'
    refine ⟨by rw [e'], by rw [e'], by rw [e'], by rw [e'], by rw [e'], fun _ => by rw [e'],
      fun regs' hr => ?_, .inl (by rw [e'])⟩
    cases hsaves.symm.trans hr
    exact absurd rfl ht

/-- The constructor of tasks leaves the processor and the sentinel of the registry alone. -/
theorem Registry.newTask_keeps (h : Registry s) (hp : Placed s) {this dir : Word}
    (ha : s.Allocatable this) (he : s.newTask this dir = some s') :
    s'.cpu = s.cpu ∧ s'.rbtId2task.nil = s.rbtId2task.nil := by
  obtain ⟨tr, htr, hsorted, -, -⟩ := h.tree
  obtain ⟨r, -, hins, -, -, -, -, hnil⟩ :=
    htr.insert_sorted hsorted ⟨s.nextPid, this⟩ (h.node_allocatable hp ha)
  have hnode : State.rbtAlloc { s with latestTask := this } = nodeOf this := rfl
  rw [State.newTask, h.getNextPid] at he
  simp only [State.rbtAlloc, State.modify] at hnode he
  rw [hnode, hins] at he
  cases he
  exact ⟨rfl, hnil⟩

theorem Inv.effect_fork (h : Inv s ring) {child dir : Word} {regs : Registers}
    (ha : s.Allocatable child) (he : s.step (.fork child dir regs) = some s') :
    Effect s s' (.fork child dir regs) ∧ ∃ next prev sig, s'.task child =
      { id := s.nextPid, regs := regs, pageDir := dir, state := .running
        uid := (s.task s.currentTask).uid, gid := (s.task s.currentTask).gid, errno := 0
        par := s.currentTask, queueNext := next, queuePrev := prev, sigWakeup := sig } := by
  obtain ⟨s₁, hnew, -, -, hcreated, -, hcur, hdir, htask⟩ := h.registry.newTask h.placed ha dir
  obtain ⟨hcpu, hnil⟩ := h.registry.newTask_keeps h.placed ha hnew
  set s₂ := s₁.modify child (fun t =>
    { t with par := s.currentTask, uid := (s₁.task s.currentTask).uid,
             gid := (s₁.task s.currentTask).gid }) with hs₂
  have hq := requeued_insertQueue s₂ .running child
  have hs' : s' = (s₂.insertQueue .running child).modify child ({ · with regs := regs }) := by
    simp only [State.step, State.fork, hnew, Option.map_some, Option.some.injEq] at he
    exact he.symm
  have hne : ∀ t ∈ s.created, t ≠ child := fun t ht e => ha.notMem (e ▸ ht)
  refine ⟨⟨fun t ht => ?_, ?_, fun _ => ⟨?_, ?_, ?_⟩, fun hsw => hsw.elim, ?_⟩, ?_⟩
  · have e : s₂.task t = s.task t := by
      rw [hs₂, State.task_modify, if_neg (hne t ht), htask]
      exact if_neg (hne t ht)
    obtain ⟨n, p, st, sig, e₁⟩ := hq.task t
    have e₂ : s'.task t = (s₂.insertQueue .running child).task t := by
      rw [hs', State.task_modify, if_neg (hne t ht)]
    rw [e₁, e] at e₂
    refine ⟨by rw [e₂], by rw [e₂], by rw [e₂], by rw [e₂], by rw [e₂], fun _ => by rw [e₂],
      fun regs' hr => ?_, .inl (by rw [e₂])⟩
    cases hr
    exact absurd rfl (hne _ ht)
  · rw [hs']
    exact hq.created.trans hcreated
  · rw [hs']
    exact hq.currentTask.trans hcur
  · rw [hs']
    exact hq.cpu.trans hcpu
  · rw [hs']
    exact hq.currentPageDir.trans hdir
  · rw [hs']
    exact (congrArg Rbt.State.nil hq.rbtId2task).trans hnil
  · have hpar : s₁.task s.currentTask = s.task s.currentTask := by
      rw [htask]
      exact if_neg (hne _ h.current)
    have hthis : s₁.task child = s.blank child dir := by
      rw [htask]
      exact if_pos rfl
    obtain ⟨n, p, st, sig, e₁⟩ := hq.task child
    have e₂ : s₂.task child = { s.blank child dir with
        par := s.currentTask, uid := (s.task s.currentTask).uid,
        gid := (s.task s.currentTask).gid } := by
      rw [hs₂, State.task_modify, if_pos rfl, hpar, hthis]
    have hst : st = .running := by
      have hsame := (sameTasks_insertQueue s₂ .running child).state child
      rw [e₁, e₂] at hsame
      exact hsame
    refine ⟨n, p, sig, ?_⟩
    rw [hs', State.task_modify, if_pos rfl, e₁, e₂, hst]
    rfl

theorem effect_wakeup {pid : Word} (he : s.step (.wakeup pid) = some s') :
    Effect s s' (.wakeup pid) := by
  simp only [State.step, State.wakeup] at he
  split at he
  · cases he
  · next errno hcheck =>
      cases he
      exact effect_setErrno hcheck rfl rfl id
  · next target hcheck =>
      split at he
      · split at he
        · cases he
        · next s₁ hremove =>
            cases he
            refine effect_requeued ?_ rfl rfl id
            exact ((requeued_removeQueue hremove).trans (requeued_insertQueue ..)).trans
              (requeued_modify _ _ fun _ => ⟨_, _, _, _, rfl⟩)
      · cases he
        exact effect_requeued (.refl s) rfl rfl id

theorem effect_sleep {pid sig : Word} {regs : Registers}
    (he : s.step (.sleep pid sig regs) = some s') : Effect s s' (.sleep pid sig regs) := by
  have hnone : ¬ s.Switches (.sleep pid sig regs) → s.saves (.sleep pid sig regs) = none :=
    fun hsw => if_neg hsw
  simp only [State.step, State.sleep] at he
  split at he
  · cases he
  · next errno hcheck =>
      cases he
      have hsw : ¬ s.Switches (.sleep pid sig regs) := fun hsw => by
        cases hcheck.symm.trans hsw.1
      exact effect_setErrno hcheck (hnone hsw) rfl hsw
  · next target hcheck =>
      split at he
      · next hrunning =>
          split at he
          · cases he
          · next s₁ hremove =>
              have hq := ((requeued_removeQueue hremove).trans
                (requeued_insertQueue s₁ .sleeping target)).trans
                (requeued_modify (s₁.insertQueue .sleeping target) target
                  (f := ({ · with state := .sleeping, sigWakeup := sig }))
                  fun _ => ⟨_, _, _, _, rfl⟩)
              split at he
              · next hself =>
                  have hcur := hself.trans hq.currentTask
                  have hsw : s.Switches (.sleep pid sig regs) := by
                    rw [hcur] at hcheck hrunning
                    exact ⟨hcheck, hrunning⟩
                  cases he
                  exact effect_switch _ hq (if_pos hsw) rfl hsw
              · next hother =>
                  have hsw : ¬ s.Switches (.sleep pid sig regs) := fun hsw => by
                    cases hcheck.symm.trans hsw.1
                    exact hother hq.currentTask.symm
                  cases he
                  exact effect_requeued hq (hnone hsw) rfl hsw
      · next hidle =>
          have hsw : ¬ s.Switches (.sleep pid sig regs) := fun hsw => by
            cases hcheck.symm.trans hsw.1
            exact hidle hsw.2
          cases he
          exact effect_requeued (.refl s) (hnone hsw) rfl hsw

theorem Inv.effect (h : Inv s ring) (hop : op.Admissible s) (he : s.step op = some s') :
    Effect s s' op := by
  cases op with
  | fork child dir regs => exact (h.effect_fork hop he).1
  | sleep pid sig regs => exact effect_sleep he
  | wakeup pid => exact effect_wakeup he
  | schedule regs =>
      cases he
      exact effect_switch _ (.refl s) rfl rfl trivial

/-- The first task, when `Task::init` returns. -/
theorem init_first {mem : Word → TaskT} {dir nil this : Word}
    {nodes : Word → Rbt.Node PairIdTask} {cpu regs : Registers} (hne : nil ≠ null)
    (heven : IsEven nil) (ha : (State.boot mem dir nil nodes cpu).Allocatable this)
    (he : (State.boot mem dir nil nodes cpu).init this regs = some s) :
    s.created = [this] ∧ s.cpu = (s.task s.currentTask).regs ∧
      s.currentPageDir = (s.task s.currentTask).pageDir ∧ (s.task this).uid = 0 ∧
      (s.task this).gid = 0 ∧ (s.task this).par = null ∧ (s.task this).errno = 0 ∧
      (s.task this).pageDir = dir ∧ s.rbtId2task.nil = nil := by
  set s₀ := State.boot mem dir nil nodes cpu with hs₀
  have hreg : Registry s₀ :=
    ⟨rfl, rfl, .nil, Rbt.Holds.new hne heven nodes, List.Pairwise.nil, rfl, fun n hn => by cases hn⟩
  have hplaced : Placed s₀ :=
    ⟨List.nodup_nil, fun _ ht => (List.not_mem_nil ht).elim, fun _ ht => (List.not_mem_nil ht).elim⟩
  obtain ⟨s₁, hnew, -, -, hcreated, -, -, -, htask⟩ := hreg.newTask hplaced ha s₀.currentPageDir
  set s₂ := (({ s₁ with currentTask := this } : State).modify this
    ({ · with uid := 0, gid := 0 })) with hs₂
  have hq := requeued_insertQueue s₂ .running this
  have hs : s = (s₂.insertQueue .running this).schedule regs := by
    simp only [State.init, hnew, Option.some.injEq] at he
    exact he.symm
  obtain ⟨n, p, st, sig, e⟩ := hq.task this
  have hcur : (s₂.insertQueue .running this).currentTask = this := hq.currentTask
  have e₁ : s.task this = { (s₂.insertQueue .running this).task this with regs := regs } := by
    rw [hs, State.schedule, hcur]
    exact if_pos rfl
  have e₂ : s₂.task this = { s₀.blank this s₀.currentPageDir with uid := 0, gid := 0 } := by
    have hthis : s₁.task this = s₀.blank this s₀.currentPageDir := by
      rw [htask]
      exact if_pos rfl
    rw [hs₂, State.task_modify, if_pos rfl]
    exact congrArg (fun x : TaskT => { x with uid := 0, gid := 0 }) hthis
  rw [e, e₂] at e₁
  refine ⟨?_, by rw [hs]; rfl, by rw [hs]; rfl, by rw [e₁], by rw [e₁], by rw [e₁]; rfl,
    by rw [e₁]; rfl, by rw [e₁]; rfl, ?_⟩
  · rw [hs]
    exact hq.created.trans hcreated
  · rw [hs]
    exact (congrArg Rbt.State.nil hq.rbtId2task).trans
      (hreg.newTask_keeps hplaced ha hnew).2

/-! ## Whole histories -/

/-- The registers that were saved last for a task. -/
def lastSaved (t : Word) : List (State × Op) → Option Registers
  | [] => none
  | p :: tr =>
    match p.1.saves p.2 with
    | some (u, regs) => if u = t then some regs else lastSaved t tr
    | none => lastSaved t tr

/-- Every task resumes where it stopped. -/
structure Resumes (tr : List (State × Op)) (s : State) : Prop where
  saved : ∀ t ∈ s.created, ∀ regs, lastSaved t tr = some regs → (s.task t).regs = regs
  /-- Only the first task has registers that no operation of the history saved. -/
  first : ∀ t ∈ s.created, lastSaved t tr = none → s.created.head? = some t
  /-- The processor runs with what was saved for the current task. -/
  loaded : s.cpu = (s.task s.currentTask).regs
  directory : s.currentPageDir = (s.task s.currentTask).pageDir
  /-- A task keeps the directory and the parent that it was forked with. -/
  forked : ∀ x child dir regs, (x, Op.fork child dir regs) ∈ tr →
    child ∈ s.created ∧ (s.task child).pageDir = dir ∧ (s.task child).par = x.currentTask
  /-- The first task keeps the directory that was loaded when `Task::init` returned, and has no
  parent. -/
  root : ∀ t, s.created.head? = some t → (s.task t).par = null ∧
    ∀ x, (s :: tr.map Prod.fst).getLast? = some x → (s.task t).pageDir = x.currentPageDir

theorem lastSaved_cases (t : Word) (p : State × Op) (tr : List (State × Op)) :
    (∃ regs, p.1.saves p.2 = some (t, regs) ∧ lastSaved t (p :: tr) = some regs) ∨
      ((∀ regs, p.1.saves p.2 ≠ some (t, regs)) ∧ lastSaved t (p :: tr) = lastSaved t tr) := by
  rw [lastSaved]
  split
  · next u regs hsaves =>
      rcases eq_or_ne u t with rfl | hne
      · exact .inl ⟨regs, hsaves, if_pos rfl⟩
      · refine .inr ⟨fun regs' hr => ?_, if_neg hne⟩
        cases hsaves.symm.trans hr
        exact hne rfl
  · next hsaves =>
      refine .inr ⟨fun regs' hr => ?_, rfl⟩
      cases hsaves.symm.trans hr

theorem Op.mem_born : t ∈ op.born ↔ ∃ dir regs, op = .fork t dir regs := by
  cases op with
  | fork child dir regs =>
      rw [born, List.mem_singleton]
      constructor
      · rintro rfl
        exact ⟨dir, regs, rfl⟩
      · rintro ⟨_, _, e⟩
        cases e
        rfl
  | sleep pid sig regs => exact ⟨fun h => (nomatch h), fun ⟨_, _, e⟩ => (nomatch e)⟩
  | wakeup pid => exact ⟨fun h => (nomatch h), fun ⟨_, _, e⟩ => (nomatch e)⟩
  | schedule regs => exact ⟨fun h => (nomatch h), fun ⟨_, _, e⟩ => (nomatch e)⟩

theorem Effect.mem_created (h : Effect s s' op) :
    t ∈ s'.created ↔ t ∈ s.created ∨ ∃ dir regs, op = .fork t dir regs := by
  rw [h.created, List.mem_append, Op.mem_born]

/-- The registers of the current task are saved when it gives the processor away, and only
then. -/
theorem Inv.not_saves_current (h : Inv s ring) (hop : op.Admissible s) (hsw : ¬ s.Switches op)
    (regs : Registers) : s.saves op ≠ some (s.currentTask, regs) := by
  cases op with
  | fork child dir regs' =>
      intro e
      cases e
      exact hop.notMem h.current
  | sleep pid sig regs' => simp [State.saves, hsw]
  | wakeup pid => exact fun e => nomatch e
  | schedule regs' => exact absurd trivial hsw

/-- Saving keeps up with the history. -/
theorem Resumes.saved_step (h : Resumes tr s) (hinv : Inv s ring) (hop : op.Admissible s)
    (he : s.step op = some s') (ht : t ∈ s'.created) :
    (∀ regs, lastSaved t ((s, op) :: tr) = some regs → (s'.task t).regs = regs) ∧
      (lastSaved t ((s, op) :: tr) = none → s'.created.head? = some t) := by
  have heff := hinv.effect hop he
  rw [heff.mem_created] at ht
  obtain ⟨regs, hsave, hlast⟩ | ⟨hnot, hlast⟩ := lastSaved_cases t (s, op) tr
  · refine ⟨fun regs' hr => ?_, fun hr => nomatch hlast.symm.trans hr⟩
    cases hlast.symm.trans hr
    obtain ht | ⟨dir, regs', rfl⟩ := ht
    · exact (heff.kept t ht).saved _ hsave
    · obtain ⟨-, _, _, _, e⟩ := hinv.effect_fork hop he
      cases hsave
      rw [e]
  · obtain ht | ⟨dir, regs', rfl⟩ := ht
    · refine ⟨fun regs hr => ?_, fun hr => ?_⟩
      · rw [(heff.kept t ht).regs hnot]
        exact h.saved t ht regs (hlast.symm.trans hr)
      · have hfirst := h.first t ht (hlast.symm.trans hr)
        rw [heff.created]
        cases hc : s.created with
        | nil => rw [hc] at ht; cases ht
        | cons a l => rwa [hc] at hfirst
    · exact absurd rfl (hnot regs')

/-- In every state reached the processor runs with the registers and in the directory of
the current task, and every task has the registers that were saved for it last and the
directory and the parent that it was created with. -/
theorem run_resumes (h : Run tr s) : Resumes tr s := by
  induction h with
  | init hne heven ha he =>
      obtain ⟨hcreated, hcpu, hdir, -, -, hpar, -⟩ := init_first hne heven ha he
      obtain ⟨_, ring, he', hinv, -⟩ := exists_init _ _ _ _ _ hne heven ha
      cases he.symm.trans he'
      have hthis := hinv.current
      rw [hcreated, List.mem_singleton] at hthis
      refine ⟨fun t _ regs hr => (nomatch hr), fun t ht _ => ?_, hcpu, hdir,
        fun _ _ _ _ hmem => (nomatch hmem), fun t ht => ?_⟩
      · rw [hcreated, List.mem_singleton] at ht
        rw [hcreated, ht]
        rfl
      · rw [hcreated] at ht
        cases ht
        refine ⟨hpar, fun x hx => ?_⟩
        rw [List.map_nil, List.getLast?_singleton, Option.some.injEq] at hx
        rw [← hx, hdir, hthis]
  | @step tr s s' op hs hop he ih =>
      obtain ⟨ring, hinv⟩ := hs.inv
      have heff := hinv.effect hop he
      have hcur := heff.kept _ hinv.current
      refine ⟨fun t ht => (ih.saved_step hinv hop he ht).1,
        fun t ht => (ih.saved_step hinv hop he ht).2, ?_, ?_, fun x child dir regs hmem => ?_,
        fun t ht => ?_⟩
      · by_cases hsw : s.Switches op
        · exact (heff.loads hsw).1
        · obtain ⟨hcur', hcpu, -⟩ := heff.stays hsw
          rw [hcpu, hcur', hcur.regs (hinv.not_saves_current hop hsw), ih.loaded]
      · by_cases hsw : s.Switches op
        · exact (heff.loads hsw).2
        · obtain ⟨hcur', -, hdir⟩ := heff.stays hsw
          rw [hdir, hcur', hcur.pageDir, ih.directory]
      · rw [heff.mem_created]
        rw [List.mem_cons, Prod.mk.injEq] at hmem
        obtain ⟨rfl, rfl⟩ | hmem := hmem
        · obtain ⟨-, _, _, _, e⟩ := hinv.effect_fork hop he
          rw [e]
          exact ⟨.inr ⟨dir, regs, rfl⟩, rfl, rfl⟩
        · obtain ⟨hc, hd, hp⟩ := ih.forked x child dir regs hmem
          exact ⟨.inl hc, (heff.kept _ hc).pageDir.trans hd, (heff.kept _ hc).par.trans hp⟩
      · obtain ⟨a, l, hc⟩ := List.exists_cons_of_ne_nil (List.ne_nil_of_mem hinv.current)
        have hfirst : s.created.head? = some t := by
          rw [heff.created, hc] at ht
          rw [hc]
          exact ht
        have hkept := heff.kept t (List.mem_of_head? hfirst)
        obtain ⟨hpar, hdir⟩ := ih.root t hfirst
        refine ⟨hkept.par.trans hpar, fun x hx => hkept.pageDir.trans (hdir x ?_)⟩
        rwa [List.map_cons, List.getLast?_cons_cons] at hx

/-- A child runs with the registers that its parent forked it with. -/
theorem run_resumes_fork : ∃ s₀ s, Run [(s, .schedule ⟨0, 0, 0⟩), (s₀, forkOp)]
    (s.schedule ⟨0, 0, 0⟩) ∧
    Resumes [(s, .schedule ⟨0, 0, 0⟩), (s₀, forkOp)] (s.schedule ⟨0, 0, 0⟩) := by
  obtain ⟨s₀, s, hrun, -⟩ := exists_run_fork
  have hrun' := hrun.append (.tail .refl trivial rfl : Steps s [(s, .schedule ⟨0, 0, 0⟩)] _)
  exact ⟨s₀, s, hrun', run_resumes hrun'⟩

/-! ## The family of tasks -/

/-- The tasks form a tree under the first task, and no task has fewer rights than another. -/
structure Family (s : State) (first : Word) : Prop where
  oldest : s.created.head? = some first
  /-- Pids number the tasks in the order of their creation. -/
  numbered : s.created.map (fun t => (s.task t).id.toNat) = List.range s.created.length
  orphan : (s.task first).par = null
  parent : ∀ t ∈ s.created, t ≠ first → (s.task t).par ∈ s.created ∧
    (s.task (s.task t).par).id < (s.task t).id
  root : ∀ t ∈ s.created, (s.task t).uid = 0 ∧ (s.task t).gid = 0
  /-- `errno` tells of lookups that found no task, and of nothing else. -/
  errno : ∀ t ∈ s.created, (s.task t).errno = 0 ∨ (s.task t).errno = ESRCH
  permitted : ∀ pid, s.checkTarget pid ≠ some (.error EPERM)

theorem checkTarget_error {pid : Word} {errno : Int}
    (h : s.checkTarget pid = some (.error errno)) :
    errno = ESRCH ∨ (errno = EPERM ∧ (s.task s.currentTask).uid ≠ 0) := by
  simp only [State.checkTarget] at h
  split at h
  · cases h
  · split at h
    · cases h
      exact .inl rfl
    · split at h
      · next hperm =>
          cases h
          refine .inr ⟨rfl, fun huid => ?_⟩
          rw [huid] at hperm
          exact absurd hperm.2 (by decide)
      · cases h

theorem permitted_of_root (h : (s.task s.currentTask).uid = 0) (pid : Word) :
    s.checkTarget pid ≠ some (.error EPERM) := by
  intro hcheck
  obtain he | ⟨-, hne⟩ := checkTarget_error hcheck
  · cases he
  · exact hne h

theorem Run.family (h : Run tr s) : ∃ first, Family s first := by
  induction h with
  | @init _ _ _ _ _ _ this s hne heven ha he =>
      obtain ⟨hcreated, -, -, huid, hgid, hpar, herrno, -⟩ := init_first hne heven ha he
      have hall : ∀ t ∈ s.created, t = this := by simp [hcreated]
      obtain ⟨ring, hinv⟩ := (Run.init hne heven ha he).inv
      have hcur : s.currentTask = this := hall _ hinv.current
      refine ⟨this, by rw [hcreated]; rfl, hinv.registry.ids, hpar,
        fun t ht hnot => absurd (hall t ht) hnot, fun t ht => ?_, fun t ht => .inl ?_,
        permitted_of_root (hcur ▸ huid)⟩
      · rw [hall t ht]
        exact ⟨huid, hgid⟩
      · rw [hall t ht]
        exact herrno
  | @step tr s s' op hs hop he ih =>
      obtain ⟨first, ih⟩ := ih
      obtain ⟨ring, hinv⟩ := hs.inv
      obtain ⟨s₁, ring', he', hinv', -, -⟩ := hinv.step hop
      cases he.symm.trans he'
      have heff := hinv.effect hop he
      have hfirst : first ∈ s.created := List.mem_of_mem_head? ih.oldest
      have hroot : ∀ t ∈ s'.created, (s'.task t).uid = 0 ∧ (s'.task t).gid = 0 := by
        intro t ht
        obtain ht | ⟨dir, regs, rfl⟩ := heff.mem_created.mp ht
        · rw [(heff.kept t ht).uid, (heff.kept t ht).gid]
          exact ih.root t ht
        · obtain ⟨-, _, _, _, e⟩ := hinv.effect_fork hop he
          rw [e]
          exact ih.root _ hinv.current
      refine ⟨first, ?_, hinv'.registry.ids, ?_, fun t ht hne => ?_, hroot, fun t ht => ?_,
        permitted_of_root (hroot _ hinv'.current).1⟩
      · rw [heff.created]
        cases hc : s.created with
        | nil => rw [hc] at hfirst; cases hfirst
        | cons a l =>
            have := ih.oldest
            rwa [hc] at this
      · rw [(heff.kept _ hfirst).par]
        exact ih.orphan
      · rw [heff.mem_created]
        obtain ht | ⟨dir, regs, rfl⟩ := heff.mem_created.mp ht
        · obtain ⟨hmem, hlt⟩ := ih.parent t ht hne
          rw [(heff.kept t ht).par, (heff.kept _ hmem).id, (heff.kept t ht).id]
          exact ⟨.inl hmem, hlt⟩
        · obtain ⟨-, _, _, _, e⟩ := hinv.effect_fork hop he
          rw [e]
          refine ⟨.inl hinv.current, ?_⟩
          change (s'.task s.currentTask).id < s.nextPid
          rw [(heff.kept _ hinv.current).id, BitVec.lt_def, hinv.registry.nextPid]
          exact hinv.registry.id_lt hinv.current
      · obtain ht | ⟨dir, regs, rfl⟩ := heff.mem_created.mp ht
        · obtain hsame | ⟨-, pid, hcheck⟩ := (heff.kept t ht).errno
          · rw [hsame]
            exact ih.errno t ht
          · obtain hesrch | ⟨heperm, -⟩ := checkTarget_error hcheck
            · exact .inr hesrch
            · rw [heperm] at hcheck
              exact absurd hcheck (ih.permitted pid)
        · obtain ⟨-, _, _, _, e⟩ := hinv.effect_fork hop he
          exact .inl (by rw [e])

/-- Following the parents leads from every task to the first one. -/
theorem Family.descends {first : Word} (h : Family s first) (ht : t ∈ s.created) :
    ∃ n, (fun u => (s.task u).par)^[n] t = first := by
  induction hid : (s.task t).id.toNat using Nat.strong_induction_on generalizing t with
  | _ k ih =>
      by_cases hfirst : t = first
      · exact ⟨0, hfirst⟩
      · obtain ⟨hmem, hlt⟩ := h.parent t ht hfirst
        rw [BitVec.lt_def, hid] at hlt
        obtain ⟨n, hn⟩ := ih _ hlt hmem rfl
        exact ⟨n + 1, by rw [Function.iterate_succ_apply, hn]⟩

/-- In every state reached the tasks form a tree, with the rights of the first task. -/
theorem run_family (h : Run tr s) : ∃ first, Family s first ∧
    ∀ t ∈ s.created, ∃ n, (fun u => (s.task u).par)^[n] t = first := by
  obtain ⟨first, hfamily⟩ := h.family
  exact ⟨first, hfamily, fun t ht => hfamily.descends ht⟩

theorem run_family_fork : ∃ s₀ s, Run [(s₀, forkOp)] s ∧ ∃ first, Family s first ∧
    ∀ t ∈ s.created, ∃ n, (fun u => (s.task u).par)^[n] t = first := by
  obtain ⟨s₀, s, hrun, -⟩ := exists_run_fork
  exact ⟨s₀, s, hrun, run_family hrun⟩

end Jkos.Task
