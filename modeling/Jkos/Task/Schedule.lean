import Jkos.Task.Registry

/-!
# Scheduling histories

Every operation keeps the queues consistent with the state fields and moves at most
its target. The current task stays runnable as long as no task puts itself to sleep
while it is alone in the running queue: its own link is then read as its successor.
-/

namespace Jkos.Task

open LinkedRing

variable {s s' : State} {ring : Queue → Cycle Word} {q : Queue} {t : Word}

/-- The queues are rings, and every task is in the one that its state names. -/
structure Consistent (s : State) (ring : Queue → Cycle Word) : Prop where
  rings : Rings s ring
  member : ∀ t q, t ∈ ring q ↔ t ∈ s.created ∧ (s.task t).state.queue = q

/-- The invariant of the scheduler. -/
structure Inv (s : State) (ring : Queue → Cycle Word) : Prop extends Consistent s ring where
  registry : Registry s
  placed : Placed s
  current : s.currentTask ∈ s.created

/-- The two states differ in nothing that the queues and the registry depend on. -/
structure SameShape (s s' : State) : Prop where
  id : ∀ t, (s'.task t).id = (s.task t).id
  state : ∀ t, (s'.task t).state = (s.task t).state
  next : ∀ t, s'.links.next t = s.links.next t
  prev : ∀ t, s'.links.prev t = s.links.prev t
  queue : s'.queue = s.queue
  rbtId2task : s'.rbtId2task = s.rbtId2task
  nextPid : s'.nextPid = s.nextPid
  created : s'.created = s.created

theorem sameShape_modify (s : State) (p : Word) {f : TaskT → TaskT}
    (hf : ∀ x : TaskT, (f x).id = x.id ∧ (f x).state = x.state ∧ (f x).queueNext = x.queueNext ∧
      (f x).queuePrev = x.queuePrev) : SameShape s (s.modify p f) := by
  have key : ∀ t, (s.modify p f).task t = s.task t ∨ (s.modify p f).task t = f (s.task t) := by
    intro t
    by_cases ht : t = p
    · subst ht
      exact .inr (if_pos rfl)
    · exact .inl (if_neg ht)
  refine ⟨fun t => ?_, fun t => ?_, fun t => ?_, fun t => ?_, rfl, rfl, rfl, rfl⟩
  · rcases key t with e | e <;> simp only [e, (hf (s.task t)).1]
  · rcases key t with e | e <;> simp only [e, (hf (s.task t)).2.1]
  · rcases key t with e | e <;> simp only [State.links, e, (hf (s.task t)).2.2.1]
  · rcases key t with e | e <;> simp only [State.links, e, (hf (s.task t)).2.2.2]

theorem Consistent.congr (h : Consistent s ring) (hs : SameShape s s') : Consistent s' ring := by
  refine ⟨h.rings.congr hs.queue (fun _ t _ => hs.next t) (fun _ t _ => hs.prev t), fun t q => ?_⟩
  rw [h.member, hs.created, hs.state]

theorem Inv.congr (h : Inv s ring) (hs : SameShape s s') (hcur : s'.currentTask ∈ s.created) :
    Inv s' ring :=
  ⟨h.toConsistent.congr hs, h.registry.congr hs.created (fun t _ => hs.id t) hs.rbtId2task
    hs.nextPid, h.placed.congr hs.created, hs.created ▸ hcur⟩

/-- A created task is in the queue of its state. -/
theorem Consistent.mem_queue (h : Consistent s ring) (ht : t ∈ s.created) :
    t ∈ ring (s.task t).state.queue :=
  (h.member t _).mpr ⟨ht, rfl⟩

/-- The link of a created task stays in its queue. -/
theorem Consistent.next (h : Consistent s ring) (ht : t ∈ s.created) :
    (s.task t).queueNext ∈ s.created ∧
      (s.task (s.task t).queueNext).state.queue = (s.task t).state.queue :=
  (h.member _ _).mp ((h.rings.isRing _).next_mem (h.mem_queue ht))

theorem TaskState.queue_injective : Function.Injective TaskState.queue := by
  intro a b h
  cases a <;> cases b <;> first | rfl | cases h

/-! ## One operation -/

theorem Inv.schedule (h : Inv s ring) (regs : Registers) :
    Inv (s.schedule regs) ring ∧ SameShape s (s.schedule regs) ∧
      (s.schedule regs).currentTask = s.getNextTask := by
  have hmod := sameShape_modify s s.currentTask (f := ({ · with regs := regs }))
    (fun _ => ⟨rfl, rfl, rfl, rfl⟩)
  have hshape : SameShape s (s.schedule regs) :=
    ⟨hmod.id, hmod.state, hmod.next, hmod.prev, hmod.queue, rfl, rfl, rfl⟩
  have hcur : (s.schedule regs).currentTask = s.getNextTask := hmod.next s.currentTask
  refine ⟨h.congr hshape ?_, hshape, hcur⟩
  rw [hcur]
  exact (h.next h.current).1

theorem Inv.setErrno (h : Inv s ring) (errno : Int) :
    Inv (s.setErrno errno) ring ∧ SameShape s (s.setErrno errno) := by
  have hshape : SameShape s (s.setErrno errno) :=
    sameShape_modify s s.currentTask (fun _ => ⟨rfl, rfl, rfl, rfl⟩)
  exact ⟨h.congr hshape h.current, hshape⟩

/-- A task that has just been constructed and is inserted into the running queue. -/
structure Admitted (s s' : State) (child : Word) (ring ring' : Queue → Cycle Word) : Prop where
  consistent : Consistent s' ring'
  registry : Registry s'
  placed : Placed s'
  created : s'.created = s.created ++ [child]
  order : ∀ q, SameOrder child (ring q) (ring' q)
  state : ∀ t ∈ s.created, (s'.task t).state = (s.task t).state
  running : (s'.task child).state = .running

/-- The constructor followed by `Queue::running.insert`, whatever is written to other
fields in between. -/
theorem Consistent.admit (h : Consistent s ring) (hr : Registry s) (hp : Placed s) {child : Word}
    (ha : s.Allocatable child) (dir : Word) :
    ∃ s₁, s.newTask child dir = some s₁ ∧ s₁.currentTask = s.currentTask ∧
      ∀ s₂, SameShape s₁ s₂ →
        ∃ ring', Admitted s (s₂.insertQueue .running child) child ring ring' := by
  obtain ⟨s₁, he, hreg, hplaced, hcreated, hqueue, hcur, -, htask⟩ := hr.newTask hp ha dir
  refine ⟨s₁, he, hcur, fun s₂ hshape => ?_⟩
  have hnot : ∀ q, child ∉ ring q := fun q hmem => ha.notMem ((h.member child q).mp hmem).1
  have hother : ∀ t ∈ s.created, s₁.task t = s.task t := by
    intro t ht
    rw [htask]
    exact if_neg (fun e : t = child => ha.notMem (e ▸ ht))
  have hrings₁ : Rings s₁ ring := by
    refine h.rings.congr hqueue (fun q t ht => ?_) (fun q t ht => ?_) <;>
      simp only [State.links, hother t ((h.member t q).mp ht).1]
  have hrings₂ : Rings s₂ ring :=
    hrings₁.congr hshape.queue (fun _ t _ => hshape.next t) (fun _ t _ => hshape.prev t)
  obtain ⟨c, hrings₃, hmem, horder⟩ := hrings₂.insert .running ha.ne_null hnot
  have hsame := sameTasks_insertQueue s₂ .running child
  have hstate : ∀ t, ((s₂.insertQueue .running child).task t).state = (s₁.task t).state :=
    fun t => (hsame.state t).trans (hshape.state t)
  have hthis : (s₁.task child).state = .running := by
    rw [htask]
    exact congrArg TaskT.state (if_pos rfl)
  have hcreated₁ := hsame.created.trans hshape.created
  have hcreated₂ : (s₂.insertQueue .running child).created = s.created ++ [child] :=
    hcreated₁.trans hcreated
  refine ⟨Function.update ring .running c, ⟨hrings₃, fun t q => ?_⟩, ?_, ?_, hcreated₂,
    horder.update, fun t ht => ?_, ?_⟩
  · rw [hcreated₂, hstate, List.mem_append, List.mem_singleton]
    rcases eq_or_ne t child with rfl | ht
    · rw [hthis]
      rcases eq_or_ne q .running with rfl | hq
      · simp [hmem, TaskState.queue]
      · rw [Function.update_of_ne hq]
        simp [hnot q, TaskState.queue, Ne.symm hq]
    · have hmem' : t ∈ Function.update ring .running c q ↔ t ∈ ring q := by
        rcases eq_or_ne q .running with rfl | hq
        · rw [Function.update_self, hmem]
          simp [ht]
        · rw [Function.update_of_ne hq]
      rw [hmem', h.member]
      constructor
      · rintro ⟨hc, rfl⟩
        exact ⟨.inl hc, by rw [hother t hc]⟩
      · rintro ⟨hc | hc, rfl⟩
        · exact ⟨hc, by rw [hother t hc]⟩
        · exact absurd hc ht
  · exact hreg.congr hcreated₁ (fun t _ => (hsame.id t).trans (hshape.id t))
      (hsame.rbtId2task.trans hshape.rbtId2task) (hsame.nextPid.trans hshape.nextPid)
  · exact hplaced.congr hcreated₁
  · rw [hstate, hother t ht]
  · rw [hstate, hthis]

/-- `fork` puts the child, and nothing else, into the running queue. -/
theorem Inv.fork (h : Inv s ring) {child : Word} (ha : s.Allocatable child) (dir : Word)
    (regs : Registers) :
    ∃ s' pid ring', s.fork child dir regs = some (s', pid) ∧ Inv s' ring' ∧
      (∀ q, SameOrder child (ring q) (ring' q)) ∧ s'.currentTask = s.currentTask ∧
      ∀ t ∈ s.created, (s'.task t).state = (s.task t).state := by
  obtain ⟨s₁, he, hcur, hadmit⟩ := h.toConsistent.admit h.registry h.placed ha dir
  have hshape := sameShape_modify s₁ child (f := fun t =>
    { t with par := s.currentTask, uid := (s₁.task s.currentTask).uid,
             gid := (s₁.task s.currentTask).gid }) (fun _ => ⟨rfl, rfl, rfl, rfl⟩)
  obtain ⟨ring', had⟩ := hadmit _ hshape
  set s₂ := s₁.modify child (fun t =>
    { t with par := s.currentTask, uid := (s₁.task s.currentTask).uid,
             gid := (s₁.task s.currentTask).gid }) with hs₂
  have hcur₂ : (s₂.insertQueue .running child).currentTask = s.currentTask :=
    (sameTasks_insertQueue s₂ .running child).currentTask.trans hcur
  have hinv : Inv (s₂.insertQueue .running child) ring' := by
    refine ⟨had.consistent, had.registry, had.placed, ?_⟩
    rw [hcur₂, had.created]
    exact List.mem_append_left _ h.current
  have hshape₃ := sameShape_modify (s₂.insertQueue .running child) child
    (f := ({ · with regs := regs })) (fun _ => ⟨rfl, rfl, rfl, rfl⟩)
  set s₃ := (s₂.insertQueue .running child).modify child ({ · with regs := regs }) with hs₃
  refine ⟨s₃, (s₃.task child).id, ring', ?_, hinv.congr hshape₃ hinv.current, had.order, hcur₂,
    fun t ht => ?_⟩
  · rw [State.fork, he]
  · rw [hshape₃.state, had.state t ht]

/-- What `sleep` and `wakeup` do to their target: out of one queue, into another, with
the state that names it. -/
theorem Inv.move (h : Inv s ring) {target : Word} (ht : target ∈ ring q) (st : TaskState)
    (hst : st.queue ≠ q) {f : TaskT → TaskT} (hf : ∀ x : TaskT, (f x).id = x.id ∧ (f x).state = st ∧
      (f x).queueNext = x.queueNext ∧ (f x).queuePrev = x.queuePrev) :
    ∃ s₁ ring', s.removeQueue q target = some s₁ ∧
      Inv ((s₁.insertQueue st.queue target).modify target f) ring' ∧
      (∀ q, SameOrder target (ring q) (ring' q)) ∧ s₁.currentTask = s.currentTask ∧
      ∀ t, t ≠ target → (((s₁.insertQueue st.queue target).modify target f).task t).state =
        (s.task t).state := by
  obtain ⟨s₁, c, he, hrings₁, hmem, horder⟩ := h.rings.remove ht
  have htc : target ∈ s.created := ((h.member target q).mp ht).1
  have hsame₁ := sameTasks_removeQueue he
  have hnot : ∀ q', target ∉ Function.update ring q c q' := by
    intro q' ht'
    rcases eq_or_ne q' q with rfl | hq
    · rw [Function.update_self, hmem] at ht'
      exact ht'.2 rfl
    · rw [Function.update_of_ne hq] at ht'
      exact hq (h.rings.disjoint q' q target ht' ht)
  obtain ⟨c', hrings₂, hmem', horder'⟩ :=
    hrings₁.insert st.queue (h.rings.ne_null q target ht) hnot
  rw [Function.update_of_ne hst] at hmem' horder'
  have hsame₂ := hsame₁.trans (sameTasks_insertQueue s₁ st.queue target)
  set s₂ := s₁.insertQueue st.queue target with hs₂
  set ring' := Function.update (Function.update ring q c) st.queue c' with hring'
  have hother : ∀ t, t ≠ target → (s₂.modify target f).task t = s₂.task t := fun t ht =>
    if_neg ht
  have hself : (s₂.modify target f).task target = f (s₂.task target) := if_pos rfl
  have hlinks : (∀ t, (s₂.modify target f).links.next t = s₂.links.next t) ∧
      ∀ t, (s₂.modify target f).links.prev t = s₂.links.prev t := by
    refine ⟨fun t => ?_, fun t => ?_⟩ <;> rcases eq_or_ne t target with rfl | ht
    · simp only [State.links, hself, (hf _).2.2.1]
    · simp only [State.links, hother t ht]
    · simp only [State.links, hself, (hf _).2.2.2]
    · simp only [State.links, hother t ht]
  have hid : ∀ t, ((s₂.modify target f).task t).id = (s.task t).id := by
    intro t
    rcases eq_or_ne t target with rfl | ht
    · rw [hself, (hf _).1, hsame₂.id]
    · rw [hother t ht, hsame₂.id]
  have hstate : ∀ t, t ≠ target → ((s₂.modify target f).task t).state = (s.task t).state := by
    intro t ht
    rw [hother t ht, hsame₂.state]
  have hmember : ∀ t q', t ∈ ring' q' ↔ t ∈ s.created ∧
      ((s₂.modify target f).task t).state.queue = q' := by
    intro t q'
    rcases eq_or_ne t target with rfl | ht'
    · rw [hself, (hf _).2.1]
      rcases eq_or_ne q' st.queue with rfl | hq
      · simp [hring', hmem', htc]
      · have := hnot q'
        simp [hring', Function.update_of_ne hq, this, Ne.symm hq]
    · rw [hstate t ht', ← h.member]
      rcases eq_or_ne q' st.queue with rfl | hq
      · simp [hring', hmem', ht']
      · rcases eq_or_ne q' q with rfl | hq'
        · simp [hring', Function.update_of_ne hq, hmem, ht']
        · simp [hring', Function.update_of_ne hq, Function.update_of_ne hq']
  refine ⟨s₁, ring', he, ⟨⟨?_, fun t q' => ?_⟩, ?_, ?_, ?_⟩, fun q' => ?_, hsame₁.currentTask,
    hstate⟩
  · exact hrings₂.congr rfl (fun _ t _ => hlinks.1 t) (fun _ t _ => hlinks.2 t)
  · rw [hmember]
    exact and_congr_left' (iff_of_eq (congrArg (t ∈ ·) hsame₂.created.symm))
  · exact h.registry.congr hsame₂.created (fun t _ => hid t) hsame₂.rbtId2task hsame₂.nextPid
  · exact h.placed.congr hsame₂.created
  · change s₂.currentTask ∈ s₂.created
    rw [hsame₂.currentTask, hsame₂.created]
    exact h.current
  · rcases eq_or_ne q' st.queue with rfl | hq
    · rw [hring', Function.update_self]
      exact horder'
    · rw [hring', Function.update_of_ne hq]
      exact horder.update q'

theorem Inv.checkTarget (h : Inv s ring) (pid : Word) :
    ∃ r, s.checkTarget pid = some r ∧
      ∀ target, r = .ok target → target ∈ s.created ∧ (s.task target).state ≠ .zombie := by
  obtain ⟨t, ht, hcase⟩ := h.registry.id2task pid
  rw [State.checkTarget, ht]
  by_cases hz : t = null ∨ (s.task t).state = .zombie
  · exact ⟨.error ESRCH, by simp only [if_pos hz], fun target e => by cases e⟩
  · rw [not_or] at hz
    obtain ⟨hnull, -⟩ | ⟨hmem, -⟩ := hcase
    · exact absurd hnull hz.1
    · simp only [hz.1, hz.2, or_self, if_false]
      split
      · exact ⟨.error EPERM, rfl, fun target e => by cases e⟩
      · refine ⟨.ok t, rfl, fun target e => ?_⟩
        cases e
        exact ⟨hmem, hz.2⟩

/-- The task that an operation moves between queues, if any. -/
def Op.target (s : State) : Op → Option Word
  | .fork child _ _ => some child
  | .sleep pid _ _ | .wakeup pid =>
    match s.checkTarget pid with
    | some (.ok target) => some target
    | _ => none
  | .schedule _ => none

/-- At most the given task changes its place; all others keep their cyclic order. -/
def Moves (target : Option Word) (ring ring' : Queue → Cycle Word) : Prop :=
  match target with
  | some a => ∀ q, SameOrder a (ring q) (ring' q)
  | none => ring' = ring

theorem Moves.refl (target : Option Word) (ring : Queue → Cycle Word) :
    Moves target ring ring := by
  cases target with
  | none => rfl
  | some a => exact fun q => .refl a (ring q)

/-- A task puts itself to sleep although its link, the task to run next, is itself. -/
def State.SleepsLast (s : State) : Op → Prop
  | .sleep pid _ _ => s.checkTarget pid = some (.ok s.currentTask) ∧
      (s.task s.currentTask).state = .running ∧ (s.task s.currentTask).queueNext = s.currentTask
  | _ => False

instance (s : State) : DecidablePred s.SleepsLast
  | .sleep pid _ _ => inferInstanceAs (Decidable (s.checkTarget pid = some (.ok s.currentTask) ∧
      (s.task s.currentTask).state = .running ∧
        (s.task s.currentTask).queueNext = s.currentTask))
  | .fork .. => inferInstanceAs (Decidable False)
  | .wakeup _ => inferInstanceAs (Decidable False)
  | .schedule _ => inferInstanceAs (Decidable False)

/-- The effect of one operation on the current task. -/
structure Switched (s s' : State) (op : Op) : Prop where
  running : ¬ s.SleepsLast op → (s.task s.currentTask).state = .running →
    (s'.task s'.currentTask).state = .running
  asleep : s.SleepsLast op → (s'.task s'.currentTask).state = .sleeping

/-- What every operation promises in a state that satisfies the invariant. -/
def StepSpec (s : State) (ring : Queue → Cycle Word) (op : Op) : Prop :=
  ∃ s' ring', s.step op = some s' ∧ Inv s' ring' ∧ Moves (op.target s) ring ring' ∧
    Switched s s' op

theorem Inv.step_schedule (h : Inv s ring) (regs : Registers) :
    StepSpec s ring (.schedule regs) := by
  obtain ⟨hinv, hshape, hcur⟩ := h.schedule regs
  refine ⟨_, ring, rfl, hinv, rfl, fun _ hrun => ?_, fun hlast => hlast.elim⟩
  rw [hcur, hshape.state]
  apply TaskState.queue_injective
  rw [State.getNextTask, (h.next h.current).2, hrun]

theorem Inv.step_fork (h : Inv s ring) {child : Word} (ha : s.Allocatable child) (dir : Word)
    (regs : Registers) : StepSpec s ring (.fork child dir regs) := by
  obtain ⟨s', pid, ring', he, hinv, horder, hcur, hstate⟩ := h.fork ha dir regs
  refine ⟨s', ring', by rw [State.step, he]; rfl, hinv, horder, fun _ hrun => ?_,
    fun hlast => hlast.elim⟩
  rw [hcur, hstate _ h.current, hrun]

/-- An operation that only reports an error, or finds nothing to do. -/
theorem Inv.step_idle (h : Inv s ring) {op : Op} (hs : SameShape s s') (he : s.step op = some s')
    (hcur : s'.currentTask = s.currentTask) (hlast : ¬ s.SleepsLast op) : StepSpec s ring op := by
  refine ⟨s', ring, he, h.congr hs (hcur ▸ h.current), .refl _ _, fun _ hrun => ?_,
    fun hl => absurd hl hlast⟩
  rw [hcur, hs.state, hrun]

theorem SameShape.refl (s : State) : SameShape s s :=
  ⟨fun _ => rfl, fun _ => rfl, fun _ => rfl, fun _ => rfl, rfl, rfl, rfl, rfl⟩

theorem Inv.step_wakeup (h : Inv s ring) (pid : Word) : StepSpec s ring (.wakeup pid) := by
  obtain ⟨r, hr, hok⟩ := h.checkTarget pid
  cases r with
  | error errno =>
      exact h.step_idle (h.setErrno errno).2 (by simp [State.step, State.wakeup, hr]) rfl id
  | ok target =>
      by_cases hsleep : (s.task target).state = .sleeping
      · obtain ⟨htc, -⟩ := hok target rfl
        have ht : target ∈ ring .sleeping := (h.member _ _).mpr ⟨htc, by rw [hsleep]; rfl⟩
        obtain ⟨s₁, ring', he, hinv, horder, hcur, hstate⟩ :=
          h.move ht .running (by decide) (f := ({ · with state := .running }))
            (fun _ => ⟨rfl, rfl, rfl, rfl⟩)
        refine ⟨_, ring', ?_, hinv, ?_, fun _ hrun => ?_, fun hlast => hlast.elim⟩
        · simp [State.step, State.wakeup, hr, hsleep, he, TaskState.queue]
        · simpa only [Op.target, hr, Moves] using horder
        · have hc : ((s₁.insertQueue TaskState.running.queue target).modify target
              ({ · with state := .running })).currentTask = s.currentTask :=
            (sameTasks_insertQueue s₁ _ target).currentTask.trans hcur
          have hne : s.currentTask ≠ target := by
            rintro rfl
            rw [hrun] at hsleep
            cases hsleep
          rw [hc, hstate _ hne, hrun]
      · exact h.step_idle (.refl s) (by simp [State.step, State.wakeup, hr, hsleep]) rfl id

theorem Inv.step_sleep (h : Inv s ring) (pid sig : Word) (regs : Registers) :
    StepSpec s ring (.sleep pid sig regs) := by
  obtain ⟨r, hr, hok⟩ := h.checkTarget pid
  cases r with
  | error errno =>
      refine h.step_idle (h.setErrno errno).2 (by simp [State.step, State.sleep, hr]) rfl ?_
      rintro ⟨hself, -⟩
      cases hr.symm.trans hself
  | ok target =>
      by_cases hrunning : (s.task target).state = .running
      · obtain ⟨htc, -⟩ := hok target rfl
        have ht : target ∈ ring .running := (h.member _ _).mpr ⟨htc, by rw [hrunning]; rfl⟩
        obtain ⟨s₁, ring', he, hinv, horder, hcur, hstate⟩ :=
          h.move ht .sleeping (by decide)
            (f := ({ · with state := .sleeping, sigWakeup := sig }))
            (fun _ => ⟨rfl, rfl, rfl, rfl⟩)
        set s₂ := (s₁.insertQueue TaskState.sleeping.queue target).modify target
          ({ · with state := .sleeping, sigWakeup := sig }) with hs₂
        have hc : s₂.currentTask = s.currentTask :=
          (sameTasks_insertQueue s₁ _ target).currentTask.trans hcur
        by_cases hself : target = s.currentTask
        · -- the next task was read before the links changed
          subst hself
          have hnext := h.next h.current
          have hshape := sameShape_modify s₂ s₂.currentTask (f := ({ · with regs := regs }))
            (fun _ => ⟨rfl, rfl, rfl, rfl⟩)
          set s₃ := s₂.modify s₂.currentTask ({ · with regs := regs }) with hs₃
          have hshape' : SameShape s₂ (s₃.switchTask s.getNextTask) :=
            ⟨hshape.id, hshape.state, hshape.next, hshape.prev, hshape.queue, rfl, rfl, rfl⟩
          have hcreated : s₂.created = s.created :=
            ((sameTasks_removeQueue he).trans (sameTasks_insertQueue s₁ _ _)).created
          refine ⟨s₃.switchTask s.getNextTask, ring', ?_, hinv.congr hshape' ?_, ?_,
            fun hlast hrun => ?_, fun hlast => ?_⟩
          · simp only [State.step, State.sleep, hr, hrunning, he, if_true]
            exact congrArg (Option.map Prod.fst) (if_pos hc.symm)
          · rw [hcreated]
            exact hnext.1
          · simpa only [Op.target, hr, Moves] using horder
          · have hne : s.getNextTask ≠ s.currentTask := fun e => hlast ⟨hr, hrun, e⟩
            change ((s₃.switchTask s.getNextTask).task s.getNextTask).state = .running
            rw [hshape'.state, hstate _ hne]
            apply TaskState.queue_injective
            rw [State.getNextTask, hnext.2, hrun]
          · obtain ⟨-, -, hloop⟩ := hlast
            have hcur' : (s₃.switchTask s.getNextTask).currentTask = s.currentTask := hloop
            rw [hcur', hshape'.state, hs₂, State.task_modify, if_pos rfl]
        · refine ⟨s₂, ring', ?_, hinv, ?_, fun _ hrun => ?_, fun hlast => ?_⟩
          · have hc' : ¬ target = s₂.currentTask := hc ▸ hself
            simp only [State.step, State.sleep, hr, hrunning, he, if_true]
            exact congrArg (Option.map Prod.fst) (if_neg hc')
          · simpa only [Op.target, hr, Moves] using horder
          · rw [hc, hstate _ (Ne.symm hself), hrun]
          · cases hr.symm.trans hlast.1
            exact absurd rfl hself
      · refine h.step_idle (.refl s) (by simp [State.step, State.sleep, hr, hrunning]) rfl ?_
        rintro ⟨hself, hrun, -⟩
        cases hr.symm.trans hself
        exact hrunning hrun

theorem Inv.step (h : Inv s ring) {op : Op} (hop : op.Admissible s) : StepSpec s ring op := by
  cases op with
  | fork child dir regs => exact h.step_fork hop dir regs
  | sleep pid sig regs => exact h.step_sleep pid sig regs
  | wakeup pid => exact h.step_wakeup pid
  | schedule regs => exact h.step_schedule regs

/-! ## Whole histories -/

theorem exists_init (task : Word → TaskT) (dir : Word) {nil : Word}
    (mem : Word → Rbt.Node PairIdTask) (cpu regs : Registers) {this : Word} (hne : nil ≠ null)
    (heven : IsEven nil) (ha : (State.boot task dir nil mem cpu).Allocatable this) :
    ∃ s ring, (State.boot task dir nil mem cpu).init this regs = some s ∧ Inv s ring ∧
      (s.task s.currentTask).state = .running := by
  set s₀ := State.boot task dir nil mem cpu with hs₀
  have hcons : Consistent s₀ (fun _ => Cycle.nil) := by
    refine ⟨⟨fun q => ⟨by simp, trivial⟩, fun q => .inr ⟨rfl, rfl⟩, ?_, ?_⟩, ?_⟩
    · intro q q' t ht
      exact absurd ht (Cycle.notMem_nil t)
    · intro q t ht
      exact absurd ht (Cycle.notMem_nil t)
    · intro t q
      simp [hs₀, State.boot, Cycle.notMem_nil]
  have hreg : Registry s₀ :=
    ⟨rfl, rfl, .nil, Rbt.Holds.new hne heven mem, List.Pairwise.nil, rfl, fun n hn => by cases hn⟩
  have hplaced : Placed s₀ :=
    ⟨List.nodup_nil, fun _ ht => (List.not_mem_nil ht).elim, fun _ ht => (List.not_mem_nil ht).elim⟩
  obtain ⟨s₁, he, -, hadmit⟩ := hcons.admit hreg hplaced ha s₀.currentPageDir
  have hmod := sameShape_modify { s₁ with currentTask := this } this
    (f := ({ · with uid := 0, gid := 0 })) (fun _ => ⟨rfl, rfl, rfl, rfl⟩)
  set s₂ := ({ s₁ with currentTask := this } : State).modify this ({ · with uid := 0, gid := 0 })
    with hs₂
  have hshape : SameShape s₁ s₂ :=
    ⟨hmod.id, hmod.state, hmod.next, hmod.prev, rfl, rfl, rfl, rfl⟩
  obtain ⟨ring, had⟩ := hadmit s₂ hshape
  have hcur : (s₂.insertQueue .running this).currentTask = this :=
    (sameTasks_insertQueue s₂ .running this).currentTask
  have hinv : Inv (s₂.insertQueue .running this) ring := by
    refine ⟨had.consistent, had.registry, had.placed, ?_⟩
    rw [hcur, had.created]
    simp
  obtain ⟨s', ring', hstep, hinv', -, hswitch⟩ := hinv.step_schedule regs
  cases hstep
  refine ⟨_, ring', ?_, hinv', hswitch.running id ?_⟩
  · rw [State.init, he]
  · rw [hcur, had.running]

theorem Run.inv {tr : List (State × Op)} (h : Run tr s) : ∃ ring, Inv s ring := by
  induction h with
  | init hne heven ha he =>
      obtain ⟨s', ring, he', hinv, -⟩ := exists_init _ _ _ _ _ hne heven ha
      cases he.symm.trans he'
      exact ⟨ring, hinv⟩
  | step _ hop he ih =>
      obtain ⟨ring, hinv⟩ := ih
      obtain ⟨s', ring', he', hinv', -⟩ := hinv.step hop
      cases he.symm.trans he'
      exact ⟨ring', hinv'⟩

/-- In every state reached the three queues are rings that agree with the state
fields; no operation can fail, each moves at most its target, and whenever `sleep` or
`wakeup` calls `remove`, the target is in that queue. -/
theorem run_queues_consistent {tr : List (State × Op)} (h : Run tr s) :
    ∃ ring, Consistent s ring ∧
      (∀ op : Op, op.Admissible s → ∃ s' ring', s.step op = some s' ∧ Consistent s' ring' ∧
        Moves (op.target s) ring ring') ∧
      ∀ pid target, s.checkTarget pid = some (.ok target) →
        ((s.task target).state = .running → target ∈ ring .running ∧ s.queue .running ≠ null) ∧
        ((s.task target).state = .sleeping →
          target ∈ ring .sleeping ∧ s.queue .sleeping ≠ null) := by
  obtain ⟨ring, hinv⟩ := h.inv
  refine ⟨ring, hinv.toConsistent, fun op hop => ?_, fun pid target ht => ?_⟩
  · obtain ⟨s', ring', he, hinv', hmoves, -⟩ := hinv.step hop
    exact ⟨s', ring', he, hinv'.toConsistent, hmoves⟩
  · obtain ⟨r, hr, hok⟩ := hinv.checkTarget pid
    cases ht.symm.trans hr
    have hmem := hinv.mem_queue (hok target rfl).1
    refine ⟨fun hst => ?_, fun hst => ?_⟩
    · rw [hst] at hmem
      exact ⟨hmem, (hinv.rings.inQueue_iff.mpr hmem).1⟩
    · rw [hst] at hmem
      exact ⟨hmem, (hinv.rings.inQueue_iff.mpr hmem).1⟩

/-- The current task may run. -/
def State.CurrentRuns (s : State) : Prop :=
  (s.task s.currentTask).state = .running ∧ s.InQueue .running s.currentTask

theorem Inv.currentRuns_iff (h : Inv s ring) :
    s.CurrentRuns ↔ (s.task s.currentTask).state = .running := by
  refine ⟨And.left, fun hrun => ⟨hrun, h.rings.inQueue_iff.mpr ?_⟩⟩
  exact (h.member _ _).mpr ⟨h.current, by rw [hrun]; rfl⟩

/-- Along a history the current task may run in every state if and only if no step is
a task putting itself to sleep that is alone in the running queue. -/
theorem run_currentRuns_iff {tr : List (State × Op)} (h : Run tr s) :
    (∀ x ∈ s :: tr.map Prod.fst, x.CurrentRuns) ↔ ∀ p ∈ tr, ¬ p.1.SleepsLast p.2 := by
  induction h with
  | init hne heven ha he =>
      obtain ⟨s', ring, he', hinv, hrun⟩ := exists_init _ _ _ _ _ hne heven ha
      cases he.symm.trans he'
      simpa using hinv.currentRuns_iff.mpr hrun
  | @step tr s s' op hs hop he ih =>
      obtain ⟨ring, hinv⟩ := hs.inv
      obtain ⟨s₁, ring', he', hinv', -, hswitch⟩ := hinv.step hop
      cases he.symm.trans he'
      rw [List.map_cons, List.forall_mem_cons, ih, List.forall_mem_cons, hinv'.currentRuns_iff]
      refine and_congr_left fun htr => ?_
      have hcur : s.CurrentRuns := (ih.mpr htr) s (by simp)
      constructor
      · intro hrun hlast
        cases hrun.symm.trans (hswitch.asleep hlast)
      · intro hlast
        exact hswitch.running hlast hcur.1

/-! ## Concrete histories -/

/-- A boot state with zeroed memory. -/
def zeroBoot : State :=
  State.boot (fun _ => ⟨0, ⟨0, 0, 0⟩, 0, .running, 0, 0, 0, 0, 0, 0, 0⟩) 0 8
    (fun _ => ⟨0, 0, fun _ => 0, ⟨0, 0⟩⟩) ⟨0, 0, 0⟩

theorem zeroBoot_allocatable : zeroBoot.Allocatable 0x1000 :=
  ⟨by decide, by decide, fun _ ht => (List.not_mem_nil ht).elim, .inl (by decide)⟩

theorem exists_run_init : ∃ s, Run [] s ∧ zeroBoot.init 0x1000 ⟨0, 0, 0⟩ = some s := by
  obtain ⟨s, -, he, -⟩ := exists_init _ _ _ _ ⟨0, 0, 0⟩ (by decide) (by decide)
    zeroBoot_allocatable
  exact ⟨s, .init (by decide) (by decide) zeroBoot_allocatable he, he⟩

theorem State.allocatable_iff {this : Word} : s.Allocatable this ↔
    this ≠ null ∧ this.toNat + sizeofTask ≤ 2 ^ 32 ∧
      s.created.Forall (fun t => this.toNat + sizeofTask ≤ t.toNat ∨
        t.toNat + sizeofTask ≤ this.toNat) ∧
      (s.rbtId2task.nil.toNat < this.toNat ∨
        this.toNat + sizeofTask ≤ s.rbtId2task.nil.toNat) := by
  rw [List.forall_iff_forall_mem]
  exact ⟨fun ⟨h₁, h₂, h₃, h₄⟩ => ⟨h₁, h₂, h₃, h₄⟩, fun ⟨h₁, h₂, h₃, h₄⟩ => ⟨h₁, h₂, h₃, h₄⟩⟩

instance (s : State) (this : Word) : Decidable (s.Allocatable this) :=
  decidable_of_iff' _ State.allocatable_iff

instance (s : State) : DecidablePred (Op.Admissible s)
  | .fork child _ _ => inferInstanceAs (Decidable (s.Allocatable child))
  | .sleep .. => inferInstanceAs (Decidable True)
  | .wakeup _ => inferInstanceAs (Decidable True)
  | .schedule _ => inferInstanceAs (Decidable True)

/-- Make the calls one after the other, each where it is admissible. -/
def play (tr : List (State × Op)) (s : State) : List Op → Option (List (State × Op) × State)
  | [] => some (tr, s)
  | op :: ops =>
    if op.Admissible s then (s.step op).bind fun s' => play ((s, op) :: tr) s' ops else none

theorem Run.play {tr tr' : List (State × Op)} {ops : List Op} (h : Run tr s)
    (hplay : play tr s ops = some (tr', s')) : Run tr' s' := by
  induction ops generalizing tr s with
  | nil =>
      cases hplay
      exact h
  | cons op ops ih =>
      rw [Task.play] at hplay
      split at hplay
      · next hop =>
          obtain ⟨s₁, hstep, hplay⟩ := Option.bind_eq_some_iff.mp hplay
          exact ih (h.step hop hstep) hplay
      · cases hplay

/-- The first task forks twice and puts itself to sleep, at which the queue points; its second
child puts the first to sleep, wakes the first task up and is interrupted. -/
def familyOps : List Op :=
  [.fork 0x2000 0 ⟨0, 0, 0⟩, .fork 0x3000 0 ⟨0, 0, 0⟩, .sleep 0 0 ⟨0, 0, 0⟩, .sleep 1 0 ⟨0, 0, 0⟩,
    .wakeup 0, .schedule ⟨0, 0, 0⟩]

theorem exists_run_family : ∃ tr s, Run tr s ∧ tr.map Prod.snd = familyOps.reverse ∧
    (∀ p ∈ tr, ¬ p.1.SleepsLast p.2) ∧ s.created = [0x1000, 0x2000, 0x3000] ∧
    (s.task 0x1000).state = .running ∧ (s.task 0x2000).state = .sleeping ∧
    (s.task 0x3000).state = .running ∧ s.currentTask = 0x1000 := by
  obtain ⟨s₀, hrun, hinit⟩ := exists_run_init
  have heval : ((zeroBoot.init 0x1000 ⟨0, 0, 0⟩).bind fun s => play [] s familyOps).map
      (fun r => (r.1.map Prod.snd, r.1.all fun p => !decide (p.1.SleepsLast p.2), r.2.created,
        [0x1000, 0x2000, 0x3000].map fun t => (r.2.task t).state, r.2.currentTask)) =
      some (familyOps.reverse, true, [0x1000, 0x2000, 0x3000],
        [.running, .sleeping, .running], 0x1000) := by
    decide
  rw [hinit, Option.bind_some, Option.map_eq_some_iff] at heval
  obtain ⟨⟨tr, s⟩, hplay, hall⟩ := heval
  simp only [Prod.mk.injEq, List.all_eq_true, List.map_cons, List.map_nil, List.cons.injEq,
    Bool.not_eq_true', decide_eq_false_iff_not, and_true] at hall
  obtain ⟨hops, hlast, hcreated, ⟨h₁, h₂, h₃⟩, hcur⟩ := hall
  exact ⟨tr, s, hrun.play hplay, hops, hlast, hcreated, h₁, h₂, h₃, hcur⟩

theorem run_queues_consistent_family : ∃ tr s, Run tr s ∧ tr.map Prod.snd = familyOps.reverse ∧
    ∃ ring, Consistent s ring ∧ 0x1000 ∈ ring .running ∧ 0x3000 ∈ ring .running ∧
      0x2000 ∈ ring .sleeping := by
  obtain ⟨tr, s, hrun, hops, -, hcreated, h₁, h₂, h₃, -⟩ := exists_run_family
  obtain ⟨ring, hcons, -⟩ := run_queues_consistent hrun
  refine ⟨tr, s, hrun, hops, ring, hcons, ?_, ?_, ?_⟩
  · exact (hcons.member _ _).mpr ⟨by rw [hcreated]; decide, by rw [h₁]; rfl⟩
  · exact (hcons.member _ _).mpr ⟨by rw [hcreated]; decide, by rw [h₃]; rfl⟩
  · exact (hcons.member _ _).mpr ⟨by rw [hcreated]; decide, by rw [h₂]; rfl⟩

theorem run_currentRuns_iff_family : ∃ tr s, Run tr s ∧ tr.map Prod.snd = familyOps.reverse ∧
    ∀ x ∈ s :: tr.map Prod.fst, x.CurrentRuns := by
  obtain ⟨tr, s, hrun, hops, hlast, -⟩ := exists_run_family
  exact ⟨tr, s, hrun, hops, (run_currentRuns_iff hrun).mpr hlast⟩

/-- Task 0 forks, puts its child to sleep and then itself; it keeps running, and the
next timer tick switches to the sleeping child. -/
theorem run_schedules_sleeping : ∃ tr s, Run tr s ∧
    tr.map Prod.snd = [.schedule ⟨0, 0, 0⟩, .sleep 0 0 ⟨0, 0, 0⟩, .sleep 1 0 ⟨0, 0, 0⟩,
      .fork 0x2000 0 ⟨0, 0, 0⟩] ∧
    s.currentTask = 0x2000 ∧ (s.task s.currentTask).state = .sleeping ∧ ¬ s.CurrentRuns := by
  obtain ⟨s₀, hrun, hinit⟩ := exists_run_init
  have heval : (((((zeroBoot.init 0x1000 ⟨0, 0, 0⟩).bind
      (·.step (.fork 0x2000 0 ⟨0, 0, 0⟩))).bind (·.step (.sleep 1 0 ⟨0, 0, 0⟩))).bind
      (·.step (.sleep 0 0 ⟨0, 0, 0⟩))).bind (·.step (.schedule ⟨0, 0, 0⟩))).map
      (fun s => (s.currentTask, (s.task s.currentTask).state)) = some (0x2000, .sleeping) := by
    decide
  have hcreated : (zeroBoot.init 0x1000 ⟨0, 0, 0⟩).map (fun s => (s.created, s.rbtId2task.nil)) =
      some ([0x1000], 8) := by
    decide
  rw [hinit, Option.map_some, Option.some.injEq, Prod.mk.injEq] at hcreated
  rw [hinit] at heval
  simp only [Option.map_eq_some_iff, Option.bind_eq_some_iff, Option.some.injEq,
    Prod.mk.injEq] at heval
  obtain ⟨s₄, ⟨s₃, ⟨s₂, ⟨s₁, ⟨s, rfl, h₁⟩, h₂⟩, h₃⟩, h₄⟩, hcur, hstate⟩ := heval
  have ha : s₀.Allocatable 0x2000 := by
    refine ⟨by decide, by decide, fun t ht => .inr ?_, .inl ?_⟩
    · rw [hcreated.1, List.mem_singleton] at ht
      rw [ht]
      decide
    · rw [hcreated.2]
      decide
  have hrun₁ : Run ((s₀, .fork 0x2000 0 ⟨0, 0, 0⟩) :: _) s₁ := Run.step hrun ha h₁
  have hrun₂ : Run ((s₁, .sleep 1 0 ⟨0, 0, 0⟩) :: _) s₂ := Run.step hrun₁ trivial h₂
  have hrun₃ : Run ((s₂, .sleep 0 0 ⟨0, 0, 0⟩) :: _) s₃ := Run.step hrun₂ trivial h₃
  have hrun₄ : Run ((s₃, .schedule ⟨0, 0, 0⟩) :: _) s₄ := Run.step hrun₃ trivial h₄
  refine ⟨_, s₄, hrun₄, rfl, hcur, hstate, fun hruns => ?_⟩
  cases hruns.1.symm.trans hstate

end Jkos.Task
