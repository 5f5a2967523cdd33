import Jkos.Lib.LinkedRing
import Jkos.Task.Basic

/-!
# The task queues as rings

`Rings s ring` says that each of the three queues is the ring `ring q` of linked
tasks, entered through its `ptr`. Insertion and removal change one ring by one task
and keep the cyclic order of the others.
-/

namespace Jkos.Task

open LinkedRing

/-- The ring links of all tasks. -/
def State.links (s : State) : Links Word :=
  ⟨fun t => (s.task t).queueNext, fun t => (s.task t).queuePrev⟩

/-- The rings behind the queues; a queue is empty exactly when its `ptr` is null. -/
structure Rings (s : State) (ring : Queue → Cycle Word) : Prop where
  isRing : ∀ q, IsRing s.links (ring q)
  ptr : ∀ q, s.queue q ∈ ring q ∨ (ring q = Cycle.nil ∧ s.queue q = null)
  disjoint : ∀ q q' t, t ∈ ring q → t ∈ ring q' → q = q'
  ne_null : ∀ q t, t ∈ ring q → t ≠ null

/-- Up to the position of `a`, the cycles `c` and `c'` are the same. -/
def SameOrder (a : Word) (c c' : Cycle Word) : Prop :=
  ∃ l l' : List Word, c = ↑l ∧ c' = ↑l' ∧ l.filter (· ≠ a) = l'.filter (· ≠ a)

theorem SameOrder.refl (a : Word) (c : Cycle Word) : SameOrder a c c := by
  induction c using Quotient.inductionOn' with
  | _ l => exact ⟨l, l, rfl, rfl, rfl⟩

variable {s s' : State} {ring : Queue → Cycle Word} {q : Queue} {task p : Word}

theorem SameOrder.update {a : Word} {c : Cycle Word} (h : SameOrder a (ring q) c) (q' : Queue) :
    SameOrder a (ring q') (Function.update ring q c q') := by
  rcases eq_or_ne q' q with rfl | hq
  · rw [Function.update_self]
    exact h
  · rw [Function.update_of_ne hq]
    exact .refl a _

/-- `t` is reached from `ptr` of the queue along `queue_next`. -/
def State.InQueue (s : State) (q : Queue) (t : Word) : Prop :=
  s.queue q ≠ null ∧ ∃ n, s.links.next^[n] (s.queue q) = t

theorem Rings.inQueue_iff (h : Rings s ring) {t : Word} : s.InQueue q t ↔ t ∈ ring q := by
  constructor
  · rintro ⟨hne, n, rfl⟩
    rcases h.ptr q with hptr | ⟨-, hnull⟩
    · exact (h.isRing q).iterate_next_mem hptr n
    · exact absurd hnull hne
  · intro ht
    rcases h.ptr q with hptr | ⟨hnil, -⟩
    · exact ⟨h.ne_null q _ hptr, (h.isRing q).exists_iterate_next hptr ht⟩
    · rw [hnil] at ht
      exact absurd ht (Cycle.notMem_nil t)

/-- Only the links of members and the `ptr`s matter. -/
theorem Rings.congr (h : Rings s ring) (hq : s'.queue = s.queue)
    (hnext : ∀ q, ∀ t ∈ ring q, s'.links.next t = s.links.next t)
    (hprev : ∀ q, ∀ t ∈ ring q, s'.links.prev t = s.links.prev t) : Rings s' ring :=
  ⟨fun q => (h.isRing q).congr (hnext q) (hprev q), fun q => hq ▸ h.ptr q, h.disjoint, h.ne_null⟩

/-! ## Effects on single fields -/

section Fields

variable (s q task)

@[simp] theorem State.task_modify (f : TaskT → TaskT) (t : Word) :
    (s.modify p f).task t = if t = p then f (s.task p) else s.task t := rfl

@[simp] theorem State.queue_modify (f : TaskT → TaskT) : (s.modify p f).queue = s.queue := rfl

@[simp] theorem State.currentTask_modify (f : TaskT → TaskT) :
    (s.modify p f).currentTask = s.currentTask := rfl

@[simp] theorem State.created_modify (f : TaskT → TaskT) :
    (s.modify p f).created = s.created := rfl

@[simp] theorem State.rbt_modify (f : TaskT → TaskT) :
    (s.modify p f).rbtId2task = s.rbtId2task := rfl

@[simp] theorem State.nextPid_modify (f : TaskT → TaskT) :
    (s.modify p f).nextPid = s.nextPid := rfl

/-- Everything that the queue operations leave alone. -/
structure SameTasks (s s' : State) : Prop where
  id : ∀ t, (s'.task t).id = (s.task t).id
  state : ∀ t, (s'.task t).state = (s.task t).state
  uid : ∀ t, (s'.task t).uid = (s.task t).uid
  currentTask : s'.currentTask = s.currentTask
  rbtId2task : s'.rbtId2task = s.rbtId2task
  nextPid : s'.nextPid = s.nextPid
  created : s'.created = s.created

end Fields

theorem SameTasks.refl (s : State) : SameTasks s s :=
  ⟨fun _ => rfl, fun _ => rfl, fun _ => rfl, rfl, rfl, rfl, rfl⟩

theorem SameTasks.trans {s'' : State} (h : SameTasks s s') (h' : SameTasks s' s'') :
    SameTasks s s'' :=
  ⟨fun t => (h'.id t).trans (h.id t), fun t => (h'.state t).trans (h.state t),
    fun t => (h'.uid t).trans (h.uid t), h'.currentTask.trans h.currentTask,
    h'.rbtId2task.trans h.rbtId2task, h'.nextPid.trans h.nextPid, h'.created.trans h.created⟩

theorem sameTasks_setNext (s : State) (t p : Word) : SameTasks s (s.setNext t p) := by
  refine ⟨fun x => ?_, fun x => ?_, fun x => ?_, rfl, rfl, rfl, rfl⟩ <;>
    by_cases hx : x = t <;> simp [State.setNext, hx]

theorem sameTasks_setPrev (s : State) (t p : Word) : SameTasks s (s.setPrev t p) := by
  refine ⟨fun x => ?_, fun x => ?_, fun x => ?_, rfl, rfl, rfl, rfl⟩ <;>
    by_cases hx : x = t <;> simp [State.setPrev, hx]

theorem sameTasks_setQueue (s : State) (q : Queue) (p : Word) : SameTasks s (s.setQueue q p) :=
  ⟨fun _ => rfl, fun _ => rfl, fun _ => rfl, rfl, rfl, rfl, rfl⟩

theorem sameTasks_insertQueue (s : State) (q : Queue) (task : Word) :
    SameTasks s (s.insertQueue q task) := by
  rw [State.insertQueue]
  split
  · exact ((sameTasks_setQueue s q task).trans (sameTasks_setNext ..)).trans
      (sameTasks_setPrev ..)
  · exact (((sameTasks_setNext s ..).trans (sameTasks_setPrev ..)).trans
      (sameTasks_setNext ..)).trans (sameTasks_setPrev ..)

theorem sameTasks_removeQueue (h : s.removeQueue q task = some s') : SameTasks s s' := by
  simp only [State.removeQueue] at h
  split at h
  · cases h
  · split at h
    · split at h
      · cases h
        exact sameTasks_setQueue ..
      · cases h
    · cases h
      refine ((((?_ : SameTasks s _).trans (sameTasks_setNext ..)).trans
        (sameTasks_setPrev ..)).trans (sameTasks_setNext ..)).trans (sameTasks_setPrev ..)
      split
      · exact sameTasks_setQueue ..
      · exact .refl s

/-! ## Links -/

theorem State.next_setNext (s : State) (t p x : Word) :
    (s.setNext t p).links.next x = if x = t then p else s.links.next x := by
  by_cases hx : x = t <;> simp [State.links, State.setNext, hx]

theorem State.prev_setNext (s : State) (t p x : Word) :
    (s.setNext t p).links.prev x = s.links.prev x := by
  by_cases hx : x = t <;> simp [State.links, State.setNext, hx]

theorem State.next_setPrev (s : State) (t p x : Word) :
    (s.setPrev t p).links.next x = s.links.next x := by
  by_cases hx : x = t <;> simp [State.links, State.setPrev, hx]

theorem State.prev_setPrev (s : State) (t p x : Word) :
    (s.setPrev t p).links.prev x = if x = t then p else s.links.prev x := by
  by_cases hx : x = t <;> simp [State.links, State.setPrev, hx]

theorem State.links_setQueue (s : State) (q : Queue) (p : Word) :
    (s.setQueue q p).links = s.links := rfl

theorem State.queue_setNext (s : State) (t p : Word) : (s.setNext t p).queue = s.queue := rfl

theorem State.queue_setPrev (s : State) (t p : Word) : (s.setPrev t p).queue = s.queue := rfl

/-! ## The queue operations on rings -/

/-- Replace one ring when the links of the others have not changed. -/
theorem Rings.update (h : Rings s ring) {c : Cycle Word} (hc : IsRing s'.links c)
    (hptr : s'.queue q ∈ c ∨ (c = Cycle.nil ∧ s'.queue q = null))
    (hmem : ∀ t ∈ c, t ≠ null ∧ ∀ q', q' ≠ q → t ∉ ring q')
    (hqueue : ∀ q', q' ≠ q → s'.queue q' = s.queue q')
    (hnext : ∀ q', q' ≠ q → ∀ t ∈ ring q', s'.links.next t = s.links.next t)
    (hprev : ∀ q', q' ≠ q → ∀ t ∈ ring q', s'.links.prev t = s.links.prev t) :
    Rings s' (Function.update ring q c) := by
  have hother : ∀ q', q' ≠ q → Function.update ring q c q' = ring q' := fun q' hq =>
    Function.update_of_ne hq c ring
  have hself : Function.update ring q c q = c := Function.update_self q c ring
  refine ⟨fun q' => ?_, fun q' => ?_, fun q₁ q₂ t h₁ h₂ => ?_, fun q' t ht => ?_⟩
  · rcases eq_or_ne q' q with rfl | hq
    · rw [hself]
      exact hc
    · rw [hother q' hq]
      exact (h.isRing q').congr (hnext q' hq) (hprev q' hq)
  · rcases eq_or_ne q' q with rfl | hq
    · rw [hself]
      exact hptr
    · rw [hother q' hq, hqueue q' hq]
      exact h.ptr q'
  · rcases eq_or_ne q₁ q with rfl | hq₁
    · rcases eq_or_ne q₂ q₁ with rfl | hq₂
      · rfl
      · rw [hself] at h₁
        rw [hother q₂ hq₂] at h₂
        exact absurd h₂ ((hmem t h₁).2 q₂ hq₂)
    · rw [hother q₁ hq₁] at h₁
      rcases eq_or_ne q₂ q with rfl | hq₂
      · rw [hself] at h₂
        exact absurd h₁ ((hmem t h₂).2 q₁ hq₁)
      · rw [hother q₂ hq₂] at h₂
        exact h.disjoint q₁ q₂ t h₁ h₂
  · rcases eq_or_ne q' q with rfl | hq
    · rw [hself] at ht
      exact (hmem t ht).1
    · rw [hother q' hq] at ht
      exact h.ne_null q' t ht

/-- `Task_queue::insert` puts a task that is in no queue behind `ptr`. -/
theorem Rings.insert (h : Rings s ring) (q : Queue) (hne : task ≠ null)
    (hfresh : ∀ q', task ∉ ring q') :
    ∃ c, Rings (s.insertQueue q task) (Function.update ring q c) ∧
      (∀ t, t ∈ c ↔ t = task ∨ t ∈ ring q) ∧ SameOrder task (ring q) c := by
  rcases h.ptr q with hptr | ⟨hnil, hnull⟩
  · obtain ⟨l, hl⟩ := exists_cons_of_mem hptr
    set p := s.queue q with hp
    have hpn : p ≠ null := h.ne_null q p hptr
    have htp : task ≠ p := fun e => hfresh q (e ▸ hptr)
    have hring := h.isRing q
    rw [hl] at hring
    have hins : s.insertQueue q task =
        (((s.setNext task (s.links.next p)).setPrev (s.links.next p) task).setNext p
          task).setPrev task p := by
      rw [State.insertQueue, if_neg hpn]
      simp [State.setNext, State.links, hp]
    have hnext : ∀ x, (s.insertQueue q task).links.next x =
        if x = task then s.links.next p else if x = p then task else s.links.next x := by
      intro x
      rw [hins, State.next_setPrev, State.next_setNext, State.next_setPrev, State.next_setNext]
      rcases eq_or_ne x task with rfl | hx
      · simp [htp]
      · simp [hx]
    have hprev : ∀ x, (s.insertQueue q task).links.prev x =
        if x = task then p else if x = s.links.next p then task else s.links.prev x := by
      intro x
      rw [hins, State.prev_setPrev, State.prev_setNext, State.prev_setPrev, State.prev_setNext]
    have hfresh' : task ∉ p :: l := by simpa [hl] using hfresh q
    have hnp : s.links.next p ∈ ring q := (h.isRing q).next_mem hptr
    refine ⟨↑(p :: task :: l), h.update (hring.insert hfresh' hnext hprev) (.inl ?_) ?_ ?_ ?_ ?_,
      ?_, p :: l, p :: task :: l, hl, rfl, by simp [Ne.symm htp]⟩
    · have hq : (s.insertQueue q task).queue q = p := by rw [hins, hp]; rfl
      rw [hq]
      simp
    · intro t ht
      have ht' : t = task ∨ t ∈ ring q := by
        rw [hl]
        simpa [or_left_comm] using ht
      rcases ht' with rfl | ht'
      · exact ⟨hne, fun q' _ => hfresh q'⟩
      · exact ⟨h.ne_null q t ht', fun q' hq ht'' => hq (h.disjoint q' q t ht'' ht')⟩
    · intro q' _
      rw [hins]
      rfl
    · intro q' hq t ht
      have h₁ : t ≠ task := fun e => hfresh q' (e ▸ ht)
      have h₂ : t ≠ p := fun e => hq (h.disjoint q' q t ht (e ▸ hptr))
      rw [hnext, if_neg h₁, if_neg h₂]
    · intro q' hq t ht
      have h₁ : t ≠ task := fun e => hfresh q' (e ▸ ht)
      have h₂ : t ≠ s.links.next p := fun e => hq (h.disjoint q' q t ht (e ▸ hnp))
      rw [hprev, if_neg h₁, if_neg h₂]
    · intro t
      rw [hl]
      simp [or_left_comm]
  · have hins : s.insertQueue q task =
        ((s.setQueue q task).setNext task task).setPrev task task := by
      rw [State.insertQueue, if_pos hnull]
    have hlinks : ∀ x, x ≠ task → (s.insertQueue q task).links.next x = s.links.next x ∧
        (s.insertQueue q task).links.prev x = s.links.prev x := by
      intro x hx
      rw [hins, State.next_setPrev, State.prev_setPrev, State.next_setNext, State.prev_setNext,
        if_neg hx, if_neg hx, State.links_setQueue]
      exact ⟨rfl, rfl⟩
    refine ⟨↑[task], h.update (isRing_singleton ?_ ?_) (.inl ?_) ?_ ?_ ?_ ?_, ?_, [], [task],
      hnil, rfl, by simp⟩
    · rw [hins, State.next_setPrev, State.next_setNext, if_pos rfl]
    · rw [hins, State.prev_setPrev, if_pos rfl]
    · rw [hins, State.queue_setPrev, State.queue_setNext]
      simp [State.setQueue]
    · intro t ht
      obtain rfl : t = task := by simpa using ht
      exact ⟨hne, fun q' _ => hfresh q'⟩
    · intro q' hq
      rw [hins, State.queue_setPrev, State.queue_setNext, State.setQueue]
      exact if_neg hq
    · intro q' _ t ht
      exact (hlinks t (fun e => hfresh q' (e ▸ ht))).1
    · intro q' _ t ht
      exact (hlinks t (fun e => hfresh q' (e ▸ ht))).2
    · intro t
      simp [hnil]

/-- `Task_queue::remove` takes a member out of its queue; its assertion holds. -/
theorem Rings.remove (h : Rings s ring) (hmem : task ∈ ring q) :
    ∃ s' c, s.removeQueue q task = some s' ∧ Rings s' (Function.update ring q c) ∧
      (∀ t, t ∈ c ↔ t ∈ ring q ∧ t ≠ task) ∧ SameOrder task (ring q) c := by
  have hptr : s.queue q ∈ ring q := by
    rcases h.ptr q with hptr | ⟨hnil, -⟩
    · exact hptr
    · rw [hnil] at hmem
      exact absurd hmem (Cycle.notMem_nil task)
  have hpn : s.queue q ≠ null := h.ne_null q _ hptr
  obtain ⟨l, hl⟩ := exists_cons_of_mem hmem
  have hring := h.isRing q
  rw [hl] at hring
  cases l with
  | nil =>
      have hpt : s.queue q = task := by simpa [hl] using hptr
      have hself : (s.task task).queueNext = task := hring.next_eq_self_iff.mpr rfl
      refine ⟨s.setQueue q null, Cycle.nil, ?_, h.update ⟨by simp, trivial⟩ (.inr ⟨rfl, ?_⟩) ?_ ?_
        ?_ ?_, ?_, [task], [], hl, rfl, by simp⟩
      · rw [State.removeQueue]
        simp only [hpt, hself, if_true]
        exact if_neg (hpt ▸ hpn)
      · simp [State.setQueue]
      · intro t ht
        exact absurd ht (Cycle.notMem_nil t)
      · intro q' hq
        exact if_neg hq
      · intro q' _ t _
        rfl
      · intro q' _ t _
        rfl
      · intro t
        rw [hl]
        simp [Cycle.notMem_nil]
  | cons b l =>
      have hnext : s.links.next task = b := hring.next_eq
      have hbt : b ≠ task := fun e => hring.nodup_cons.1 (by simp [e])
      have hprevMem : s.links.prev task ∈ ring q := (h.isRing q).prev_mem hmem
      have hpt : s.links.prev task ≠ task := by
        intro e
        have := (h.isRing q).next_prev hmem
        rw [e, hnext] at this
        exact hbt this
      have hptr' : ¬ (s.task (s.queue q)).queueNext = s.queue q := by
        intro e
        obtain ⟨l', hl'⟩ := exists_cons_of_mem hptr
        have hring' := h.isRing q
        rw [hl'] at hring'
        have hlen := congrArg Cycle.length hl
        rw [hl', hring'.next_eq_self_iff.mp e] at hlen
        simp at hlen
      set s₁ := if s.queue q = task then s.setQueue q (s.task (s.queue q)).queueNext else s
        with hs₁
      have htask : s₁.task = s.task := by
        rw [hs₁]
        split <;> rfl
      have hlinks : s₁.links = s.links := by simp only [State.links, htask]
      set s' := (((s₁.setNext (s.links.prev task) b).setPrev b (s.links.prev task)).setNext task
        null).setPrev task null with hs'
      have hremove : s.removeQueue q task = some s' := by
        rw [State.removeQueue]
        simp only [if_neg hpn, if_neg hptr', ← hs₁, htask]
        have hn : (s.task task).queueNext = b := hnext
        have hp : (s.task task).queuePrev = s.links.prev task := rfl
        simp only [State.setNext, State.task_modify, htask, if_neg (Ne.symm hpt), hn, hp]
        rfl
      have hn' : ∀ x, x ≠ task → s'.links.next x =
          if x = s.links.prev task then s.links.next task else s.links.next x := by
        intro x hx
        rw [hs', State.next_setPrev, State.next_setNext, if_neg hx, State.next_setPrev,
          State.next_setNext, hlinks, hnext]
      have hp' : ∀ x, x ≠ task → s'.links.prev x =
          if x = s.links.next task then s.links.prev task else s.links.prev x := by
        intro x hx
        rw [hs', State.prev_setPrev, if_neg hx, State.prev_setNext, State.prev_setPrev,
          State.prev_setNext, hlinks, hnext]
      have hqueue : ∀ q', s'.queue q' = s₁.queue q' := fun _ => rfl
      refine ⟨s', ↑(b :: l), hremove, h.update (hring.remove hn' hp') (.inl ?_) ?_ ?_ ?_ ?_, ?_,
        task :: b :: l, b :: l, hl, rfl, by simp⟩
      · rw [hqueue, hs₁]
        split
        · next e =>
            have hb : (s.task (s.queue q)).queueNext = b := by rw [e]; exact hnext
            simp [State.setQueue, hb]
        · next e =>
            rw [hl] at hptr
            simpa [e] using hptr
      · intro t ht
        have ht' : t ∈ ring q := by
          rw [hl]
          simp only [Cycle.mem_coe_iff] at ht ⊢
          exact List.mem_cons_of_mem _ ht
        exact ⟨h.ne_null q t ht', fun q' hq ht'' => hq (h.disjoint q' q t ht'' ht')⟩
      · intro q' hq
        rw [hqueue, hs₁]
        split
        · exact if_neg hq
        · rfl
      · intro q' hq t ht
        have h₁ : t ≠ task := fun e => hq (h.disjoint q' q t ht (e ▸ hmem))
        have h₂ : t ≠ s.links.prev task := fun e => hq (h.disjoint q' q t ht (e ▸ hprevMem))
        rw [hn' t h₁, if_neg h₂]
      · intro q' hq t ht
        have h₁ : t ≠ task := fun e => hq (h.disjoint q' q t ht (e ▸ hmem))
        have h₂ : t ≠ s.links.next task := fun e =>
          hq (h.disjoint q' q t ht (e ▸ (h.isRing q).next_mem hmem))
        rw [hp' t h₁, if_neg h₂]
      · intro t
        rw [hl]
        have hnot := hring.nodup_cons.1
        simp only [Cycle.mem_coe_iff, List.mem_cons] at hnot ⊢
        constructor
        · intro ht
          exact ⟨.inr ht, fun e => hnot (e ▸ ht)⟩
        · rintro ⟨rfl | ht, hne⟩
          · exact absurd rfl hne
          · exact ht

end Jkos.Task
