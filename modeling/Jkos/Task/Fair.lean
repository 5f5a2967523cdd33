import Jkos.Lib.CyclicOrder
import Jkos.Task.Schedule

/-!
# No starvation

A task in the running queue waits for the tasks before it in the ring, and for nothing
else. Every switch brings it one place closer. A task that is forked or woken up may come
in between, but only one place for each of them, so the time to wait is bounded by what has
happened and not by who does it.
-/

namespace Jkos.Task

open LinkedRing CyclicOrder

variable {s s' s'' : State} {ring : Queue → Cycle Word} {t : Word} {n : Nat} {op : Op}
  {tr seg : List (State × Op)}

/-- Operations from the state `s` on, the last one first. -/
inductive Steps (s : State) : List (State × Op) → State → Prop
  | refl : Steps s [] s
  | tail {seg : List (State × Op)} {s' s'' : State} {op : Op} (hs : Steps s seg s')
      (hop : op.Admissible s') (h : s'.step op = some s'') : Steps s ((s', op) :: seg) s''

theorem Run.append (h : Run tr s) (hseg : Steps s seg s') : Run (seg ++ tr) s' := by
  induction hseg with
  | refl => exact h
  | tail _ hop he ih => exact ih.step hop he

/-- The operation gives the processor away. -/
def State.Switches (s : State) : Op → Prop
  | .schedule _ => True
  | .sleep pid _ _ => s.checkTarget pid = some (.ok s.currentTask) ∧
      (s.task s.currentTask).state = .running
  | _ => False

instance (s : State) : DecidablePred s.Switches
  | .schedule _ => inferInstanceAs (Decidable True)
  | .sleep pid _ _ => inferInstanceAs (Decidable (s.checkTarget pid = some (.ok s.currentTask) ∧
      (s.task s.currentTask).state = .running))
  | .fork .. => inferInstanceAs (Decidable False)
  | .wakeup _ => inferInstanceAs (Decidable False)

/-- The operation adds a task to the running queue. -/
def State.admits (s : State) : Op → Bool
  | .fork .. => true
  | .wakeup pid =>
    match s.checkTarget pid with
    | some (.ok target) => (s.task target).state == .sleeping
    | _ => false
  | _ => false

/-- How often the processor is given away. -/
def switches (seg : List (State × Op)) : Nat := seg.countP fun p => p.1.Switches p.2

/-- How many tasks have been added to the running queue. -/
def arrivals (seg : List (State × Op)) : Nat := seg.countP fun p => p.1.admits p.2

/-! ## The place of a waiting task -/

/-- In the ring of the running queue, `n` tasks come between the current task and `t`. -/
def State.Waits (s : State) (t : Word) (n : Nat) : Prop :=
  ∃ ring, Inv s ring ∧ Ahead (ring .running) s.currentTask t n

/-- What an operation does to a task that waits. -/
def WaitStep (s s' : State) (op : Op) (t : Word) (n : Nat) : Prop :=
  s'.currentTask = t ∨ ∃ k, s'.Waits t k ∧
    k + (if s.Switches op then 1 else 0) ≤ n + (if s.admits op then 1 else 0)

section Step

variable (h : Inv s ring) (ha : Ahead (ring .running) s.currentTask t n)
include h ha

/-- An operation that leaves the queues and the current task alone. -/
theorem waitStep_idle (hs : SameShape s s') (hcur : s'.currentTask = s.currentTask)
    (hop : ¬ s.Switches op) : WaitStep s s' op t n := by
  refine .inr ⟨n, ⟨ring, h.congr hs (hcur ▸ h.current), by rwa [hcur]⟩, ?_⟩
  rw [if_neg hop]
  omega

/-- A third task changes its place. -/
theorem waits_of_sameOrder {ring' : Queue → Cycle Word} {d : Word} (h' : Inv s' ring')
    (hcur : s'.currentTask = s.currentTask) (ho : SameOrder d (ring .running) (ring' .running))
    (hd : s.currentTask ≠ d) (ht : t ≠ d) :
    ∃ k, s'.Waits t k ∧ k ≤ n + 1 ∧ (d ∉ ring' .running → k ≤ n) := by
  obtain ⟨l, l', hl, hl', hf⟩ := ho
  have hnd := (h.rings.isRing .running).nodup
  have hnd' := (h'.rings.isRing .running).nodup
  rw [hl] at ha hnd
  rw [hl'] at hnd'
  obtain ⟨k, hk, hle, hleave⟩ := ha.of_filter hnd hnd' hf hd ht
  refine ⟨k, ⟨ring', h', ?_⟩, hle, fun hnot => hleave ?_⟩
  · rwa [hcur, hl']
  · rwa [hl', Cycle.mem_coe_iff] at hnot

theorem waitStep_schedule (regs : Registers) :
    WaitStep s (s.schedule regs) (.schedule regs) t n := by
  obtain ⟨hinv, -, hcur⟩ := h.schedule regs
  obtain ⟨x, w, hc, hx⟩ := ha.step
  have hring := h.rings.isRing .running
  rw [hc] at hring
  have hnext : s.getNextTask = x := hring.next_eq
  rw [← hnext] at hx
  obtain ⟨hx, -⟩ | ⟨k, rfl, hk⟩ := hx
  · exact .inl (hcur.trans hx)
  · refine .inr ⟨k, ⟨ring, hinv, by rwa [hcur]⟩, ?_⟩
    rw [if_pos (show s.Switches (.schedule regs) from trivial)]
    exact Nat.le_add_right _ _

theorem waitStep_fork {child dir : Word} {regs : Registers} (hop : s.Allocatable child)
    (ht : t ∈ s.created) (he : s.step (.fork child dir regs) = some s') :
    WaitStep s s' (.fork child dir regs) t n := by
  obtain ⟨s₁, pid, ring', he', hinv, horder, hcur, -⟩ := h.fork hop dir regs
  rw [State.step, he'] at he
  cases he
  have hne : ∀ u ∈ s.created, u ≠ child := fun u hu e => hop.notMem (e ▸ hu)
  obtain ⟨k, hk, hle, -⟩ := waits_of_sameOrder h ha hinv hcur (horder .running)
    (hne _ h.current) (hne _ ht)
  refine .inr ⟨k, hk, ?_⟩
  rw [if_neg (show ¬ s.Switches (.fork child dir regs) from id)]
  exact hle

theorem waitStep_wakeup {pid : Word} (hcur : (s.task s.currentTask).state = .running)
    (ht : (s.task t).state = .running) (he : s.step (.wakeup pid) = some s') :
    WaitStep s s' (.wakeup pid) t n := by
  obtain ⟨r, hr, hok⟩ := h.checkTarget pid
  cases r with
  | error errno =>
      simp only [State.step, State.wakeup, hr, Option.map_some, Option.some.injEq] at he
      subst he
      exact waitStep_idle h ha (h.setErrno errno).2 rfl id
  | ok target =>
      by_cases hsleep : (s.task target).state = .sleeping
      · have hmem : target ∈ ring .sleeping :=
          (h.member _ _).mpr ⟨(hok target rfl).1, by rw [hsleep]; rfl⟩
        obtain ⟨s₁, ring', he', hinv, horder, hcur', -⟩ :=
          h.move hmem .running (by decide) (f := ({ · with state := .running }))
            (fun _ => ⟨rfl, rfl, rfl, rfl⟩)
        simp only [State.step, State.wakeup, hr, if_pos hsleep, he', Option.map_some,
          Option.some.injEq] at he
        subst he
        have hne : ∀ u, (s.task u).state = .running → u ≠ target := by
          rintro u hu rfl
          cases hu.symm.trans hsleep
        obtain ⟨k, hk, hle, -⟩ := waits_of_sameOrder h ha hinv
          ((sameTasks_insertQueue s₁ _ target).currentTask.trans hcur') (horder .running)
          (hne _ hcur) (hne _ ht)
        have hadmit : s.admits (.wakeup pid) = true := by
          simp only [State.admits, hr, hsleep, beq_self_eq_true]
        refine .inr ⟨k, hk, ?_⟩
        rw [if_neg (show ¬ s.Switches (.wakeup pid) from id), if_pos hadmit]
        exact hle
      · simp only [State.step, State.wakeup, hr, if_neg hsleep, Option.map_some,
          Option.some.injEq] at he
        subst he
        exact waitStep_idle h ha (.refl s) rfl id

/-- The current task leaves the ring, and its link, which was read before, takes over. -/
theorem waitStep_sleep_self {pid sig : Word} {regs : Registers} {s₁ s₂ : State}
    {ring' : Queue → Cycle Word} (hsw : s.Switches (.sleep pid sig regs)) (hinv : Inv s₁ ring')
    (ho : SameOrder s.currentTask (ring .running) (ring' .running))
    (hstate : (s₁.task s.currentTask).state = .sleeping) (hs : SameShape s₁ s₂)
    (hcur : s₂.currentTask = s.getNextTask) (hmem : s.getNextTask ∈ s₁.created) :
    WaitStep s s₂ (.sleep pid sig regs) t n := by
  have hnot : s.currentTask ∉ ring' .running := by
    intro hmem
    have hq := ((hinv.member _ _).mp hmem).2
    rw [hstate] at hq
    cases hq
  obtain ⟨l, l', hl, hl', hf⟩ := ho
  have hring := h.rings.isRing .running
  have hnd := hring.nodup
  rw [hl] at ha hnd
  rw [hl', Cycle.mem_coe_iff] at hnot
  obtain ⟨x, w, hc, hx⟩ := ha.of_leave hnd hf hnot
  rw [hl, hc] at hring
  have hnext : s.getNextTask = x := hring.next_eq
  rw [← hnext] at hx
  obtain ⟨hx, -⟩ | ⟨k, rfl, hk⟩ := hx
  · exact .inl (hcur.trans hx)
  · refine .inr ⟨k, ⟨ring', hinv.congr hs (hcur ▸ hmem), by rwa [hcur, hl']⟩, ?_⟩
    rw [if_pos hsw]
    exact Nat.le_add_right _ _

theorem waitStep_sleep {pid sig : Word} {regs : Registers}
    (he : s.step (.sleep pid sig regs) = some s') (ht : (s'.task t).state = .running) :
    WaitStep s s' (.sleep pid sig regs) t n := by
  obtain ⟨r, hr, hok⟩ := h.checkTarget pid
  cases r with
  | error errno =>
      simp only [State.step, State.sleep, hr, Option.map_some, Option.some.injEq] at he
      subst he
      refine waitStep_idle h ha (h.setErrno errno).2 rfl ?_
      rintro ⟨hself, -⟩
      cases hr.symm.trans hself
  | ok target =>
      by_cases hrunning : (s.task target).state = .running
      · have hmem : target ∈ ring .running :=
          (h.member _ _).mpr ⟨(hok target rfl).1, by rw [hrunning]; rfl⟩
        obtain ⟨s₁, ring', he', hinv, horder, hcur, -⟩ :=
          h.move hmem .sleeping (by decide)
            (f := ({ · with state := .sleeping, sigWakeup := sig }))
            (fun _ => ⟨rfl, rfl, rfl, rfl⟩)
        set s₂ := (s₁.insertQueue TaskState.sleeping.queue target).modify target
          ({ · with state := .sleeping, sigWakeup := sig }) with hs₂
        have hc : s₂.currentTask = s.currentTask :=
          (sameTasks_insertQueue s₁ _ target).currentTask.trans hcur
        have hstate : (s₂.task target).state = .sleeping := by
          rw [hs₂, State.task_modify, if_pos rfl]
        simp only [State.step, State.sleep, hr, if_pos hrunning, he'] at he
        by_cases hself : target = s.currentTask
        · subst hself
          have he₂ := he.symm.trans (congrArg (Option.map Prod.fst) (if_pos hc.symm))
          cases he₂
          have hshape := sameShape_modify s₂ s₂.currentTask (f := ({ · with regs := regs }))
            (fun _ => ⟨rfl, rfl, rfl, rfl⟩)
          have hcreated : s₂.created = s.created :=
            ((sameTasks_removeQueue he').trans (sameTasks_insertQueue s₁ _ _)).created
          exact waitStep_sleep_self h ha ⟨hr, hrunning⟩ hinv (horder .running) hstate
            ⟨hshape.id, hshape.state, hshape.next, hshape.prev, hshape.queue, rfl, rfl, rfl⟩ rfl
            (hcreated ▸ (h.next h.current).1)
        · have he₂ := he.symm.trans
            (congrArg (Option.map Prod.fst) (if_neg fun e => hself (e.trans hc)))
          cases he₂
          have hne : t ≠ target := by
            rintro rfl
            cases ht.symm.trans hstate
          have hnot : target ∉ ring' .running := by
            intro hmem'
            have hq := ((hinv.member _ _).mp hmem').2
            rw [hstate] at hq
            cases hq
          obtain ⟨k, hk, -, hle⟩ := waits_of_sameOrder h ha hinv hc (horder .running)
            (Ne.symm hself) hne
          refine .inr ⟨k, hk, ?_⟩
          have hsw : ¬ s.Switches (.sleep pid sig regs) := by
            rintro ⟨hself', -⟩
            cases hr.symm.trans hself'
            exact hself rfl
          rw [if_neg hsw]
          exact Nat.le_trans (hle hnot) (Nat.le_add_right _ _)
      · simp only [State.step, State.sleep, hr, if_neg hrunning, Option.map_some,
          Option.some.injEq] at he
        subst he
        refine waitStep_idle h ha (.refl s) rfl ?_
        rintro ⟨hself, hrun⟩
        cases hr.symm.trans hself
        exact hrunning hrun

end Step

theorem WaitStep.of_step (hw : s.Waits t n) (hcur : (s.task s.currentTask).state = .running)
    (ht : (s.task t).state = .running) (ht' : (s'.task t).state = .running)
    (hop : op.Admissible s) (he : s.step op = some s') : WaitStep s s' op t n := by
  obtain ⟨ring, h, ha⟩ := hw
  cases op with
  | fork child dir regs =>
      have htc : t ∈ s.created := by
        obtain ⟨u, v, hc, -⟩ := ha
        exact ((h.member t .running).mp (by simp [hc])).1
      exact waitStep_fork h ha hop htc he
  | sleep pid sig regs => exact waitStep_sleep h ha he ht'
  | wakeup pid => exact waitStep_wakeup h ha hcur ht he
  | schedule regs =>
      cases he
      exact waitStep_schedule h ha regs

/-! ## Histories -/

/-- As long as no task puts itself to sleep that is alone, a running task is current. -/
theorem Steps.current_running (hrun : Run tr s) (hcur : (s.task s.currentTask).state = .running)
    (h : Steps s seg s') (hlast : ∀ p ∈ seg, ¬ p.1.SleepsLast p.2) :
    (s'.task s'.currentTask).state = .running := by
  induction h with
  | refl => exact hcur
  | @tail seg s₁ s₂ op hs hop he ih =>
      rw [List.forall_mem_cons] at hlast
      obtain ⟨ring, hinv⟩ := (hrun.append hs).inv
      obtain ⟨s₃, ring', he', -, -, hswitch⟩ := hinv.step hop
      cases he.symm.trans he'
      exact hswitch.running hlast.1 (ih hlast.2)

theorem Steps.mem_states (h : Steps s seg s') : s ∈ s' :: seg.map Prod.fst := by
  induction h with
  | refl => exact List.mem_cons_self
  | tail _ _ _ ih => exact List.mem_cons_of_mem _ ih

theorem Steps.run_of_mem (h : Steps s seg s') (hrun : Run tr s) {x : State}
    (hx : x ∈ s' :: seg.map Prod.fst) : ∃ tr', Run tr' x := by
  induction h with
  | refl =>
      rw [List.map_nil, List.mem_singleton] at hx
      exact ⟨tr, hx ▸ hrun⟩
  | @tail seg s₁ s₂ op hs hop he ih =>
      rw [List.map_cons, List.mem_cons] at hx
      obtain rfl | hx := hx
      · exact ⟨_, (hrun.append hs).step hop he⟩
      · exact ih hx

theorem Run.inQueue_running_iff (h : Run tr s) :
    s.InQueue .running t ↔ t ∈ s.created ∧ (s.task t).state = .running := by
  obtain ⟨ring, hinv⟩ := h.inv
  rw [hinv.rings.inQueue_iff, hinv.member]
  refine and_congr_right fun _ => ⟨fun hq => ?_, fun hst => by rw [hst]; rfl⟩
  exact TaskState.queue_injective hq

/-- A task that waits comes closer with every switch and further away with at most every
arrival. -/
theorem Steps.waits (hrun : Run tr s) (hcur : (s.task s.currentTask).state = .running)
    (hw : s.Waits t n) (hseg : Steps s seg s') (hlast : ∀ p ∈ seg, ¬ p.1.SleepsLast p.2)
    (hq : ∀ x ∈ s' :: seg.map Prod.fst, (x.task t).state = .running) :
    (∃ x ∈ s' :: seg.map Prod.fst, x.currentTask = t) ∨
      ∃ k, s'.Waits t k ∧ k + switches seg ≤ n + arrivals seg := by
  induction hseg with
  | refl => exact .inr ⟨n, hw, Nat.le_refl _⟩
  | @tail seg s₁ s₂ op hs hop he ih =>
      rw [List.forall_mem_cons] at hlast
      rw [List.map_cons, List.forall_mem_cons] at hq
      obtain ⟨x, hx, hcur⟩ | ⟨k, hk, hle⟩ := ih hlast.2 hq.2
      · exact .inl ⟨x, List.mem_cons_of_mem _ hx, hcur⟩
      · have hcur := hs.current_running hrun hcur hlast.2
        have hstep := WaitStep.of_step hk hcur (hq.2 _ List.mem_cons_self) hq.1 hop he
        obtain hcur' | ⟨j, hj, hle'⟩ := hstep
        · exact .inl ⟨_, List.mem_cons_self, hcur'⟩
        · refine .inr ⟨j, hj, ?_⟩
          rw [switches, arrivals, List.countP_cons, List.countP_cons, ← switches, ← arrivals]
          simp only [decide_eq_true_eq]
          omega

/-- When a task of the running queue is current, a task that stays in the running queue gets
the processor before the tasks of the queue and those that arrive later have all had their
turn. -/
theorem run_noStarvation (hrun : Run tr s) (hcur : s.InQueue .running s.currentTask)
    (hseg : Steps s seg s') (hlast : ∀ p ∈ seg, ¬ p.1.SleepsLast p.2)
    (hq : ∀ x ∈ s' :: seg.map Prod.fst, x.InQueue .running t) {T : Finset Word}
    (hT : ∀ u, u ∈ T ↔ s.InQueue .running u) (hlong : T.card + arrivals seg ≤ switches seg + 1) :
    ∃ x ∈ s' :: seg.map Prod.fst, x.currentTask = t := by
  obtain ⟨ring, hinv⟩ := hrun.inv
  by_cases hself : s.currentTask = t
  · exact ⟨s, hseg.mem_states, hself⟩
  have hstate : ∀ x ∈ s' :: seg.map Prod.fst, (x.task t).state = .running := by
    intro x hx
    obtain ⟨tr', hx'⟩ := hseg.run_of_mem hrun hx
    exact (hx'.inQueue_running_iff.mp (hq x hx)).2
  have hmem : t ∈ ring .running := hinv.rings.inQueue_iff.mp (hq s hseg.mem_states)
  have hcurrent : s.currentTask ∈ ring .running := hinv.rings.inQueue_iff.mp hcur
  obtain ⟨n, hn, ha⟩ := exists_ahead hcurrent hmem hself
  have hcard : (ring .running).length = T.card := by
    obtain ⟨l, hl⟩ := exists_cons_of_mem hmem
    have hnd := (hinv.rings.isRing .running).nodup
    rw [hl, Cycle.nodup_coe_iff] at hnd
    have hset : T = (t :: l).toFinset := by
      ext u
      rw [hT, hinv.rings.inQueue_iff, hl, Cycle.mem_coe_iff, List.mem_toFinset]
    rw [hset, List.toFinset_card_of_nodup hnd, hl]
    rfl
  have hrunning := (hrun.inQueue_running_iff.mp hcur).2
  obtain hfound | ⟨k, -, hle⟩ := hseg.waits hrun hrunning ⟨ring, hinv, ha⟩ hlast hstate
  · exact hfound
  · omega

/-! ## Concrete histories -/

theorem Steps.play {seg seg' : List (State × Op)} {ops : List Op} (h : Steps s seg s')
    (hplay : play seg s' ops = some (seg', s'')) : Steps s seg' s'' := by
  induction ops generalizing seg s' with
  | nil =>
      cases hplay
      exact h
  | cons op ops ih =>
      rw [Task.play] at hplay
      split at hplay
      · next hop =>
          obtain ⟨s₁, hstep, hplay⟩ := Option.bind_eq_some_iff.mp hplay
          exact ih (h.tail hop hstep) hplay
      · cases hplay

/-- The first task forks. -/
def forkOp : Op := .fork 0x2000 0 ⟨0, 0, 0⟩

/-- It forks again, and is interrupted before the new child is. -/
def busyOps : List Op := [.fork 0x3000 0 ⟨0, 0, 0⟩, .schedule ⟨0, 0, 0⟩, .schedule ⟨0, 0, 0⟩]

theorem exists_run_busy : ∃ s₀ s seg s', Run [(s₀, forkOp)] s ∧ Steps s seg s' ∧
    seg.map Prod.snd = busyOps.reverse ∧ s.created = [0x1000, 0x2000] ∧
    s.currentTask = 0x1000 ∧ (s.task 0x1000).state = .running ∧
    (∀ x ∈ s' :: seg.map Prod.fst, 0x2000 ∈ x.created ∧ (x.task 0x2000).state = .running) ∧
    (∀ p ∈ seg, ¬ p.1.SleepsLast p.2) ∧ arrivals seg = 1 ∧ switches seg = 2 := by
  obtain ⟨s₀, hrun, hinit⟩ := exists_run_init
  have heval : ((zeroBoot.init 0x1000 ⟨0, 0, 0⟩).bind fun s₀ => (play [] s₀ [forkOp]).bind fun r =>
      (play [] r.2 busyOps).map fun r' => decide (r'.1.map Prod.snd = busyOps.reverse ∧
        r.2.created = [0x1000, 0x2000] ∧ r.2.currentTask = 0x1000 ∧
        (r.2.task 0x1000).state = .running ∧
        (∀ x ∈ r'.2 :: r'.1.map Prod.fst,
          0x2000 ∈ x.created ∧ (x.task 0x2000).state = .running) ∧
        (∀ p ∈ r'.1, ¬ p.1.SleepsLast p.2) ∧ arrivals r'.1 = 1 ∧ switches r'.1 = 2)) =
      some true := by
    decide
  have hfork : (zeroBoot.init 0x1000 ⟨0, 0, 0⟩).map (fun s => decide ((forkOp).Admissible s)) =
      some true := by
    decide
  rw [hinit, Option.bind_some, Option.bind_eq_some_iff] at heval
  rw [hinit, Option.map_some, Option.some.injEq, decide_eq_true_eq] at hfork
  obtain ⟨⟨tr, s⟩, hfirst, heval⟩ := heval
  obtain ⟨⟨seg, s'⟩, hplay, hall⟩ := Option.map_eq_some_iff.mp heval
  rw [Task.play, if_pos hfork, Option.bind_eq_some_iff] at hfirst
  obtain ⟨s₁, hstep, hfirst⟩ := hfirst
  cases hfirst
  exact ⟨s₀, s, seg, s', hrun.step hfork hstep, Steps.play .refl hplay, of_decide_eq_true hall⟩

theorem exists_run_fork : ∃ s₀ s, Run [(s₀, forkOp)] s ∧ s.created = [0x1000, 0x2000] ∧
    ∀ t ∈ s.created, (s.task t).state = .running := by
  obtain ⟨s₀, hrun, hinit⟩ := exists_run_init
  have heval : ((zeroBoot.init 0x1000 ⟨0, 0, 0⟩).bind (·.step forkOp)).map
      (fun s => (s.created, (s.task 0x1000).state, (s.task 0x2000).state)) =
      some ([0x1000, 0x2000], .running, .running) := by
    decide
  have hcreated : (zeroBoot.init 0x1000 ⟨0, 0, 0⟩).map (fun s => (s.created, s.rbtId2task.nil)) =
      some ([0x1000], 8) := by
    decide
  rw [hinit, Option.map_some, Option.some.injEq, Prod.mk.injEq] at hcreated
  rw [hinit] at heval
  simp only [Option.map_eq_some_iff, Option.bind_eq_some_iff, Option.some.injEq,
    Prod.mk.injEq] at heval
  obtain ⟨s, ⟨_, rfl, hstep⟩, hall, h₁, h₂⟩ := heval
  have ha : s₀.Allocatable 0x2000 := by
    refine ⟨by decide, by decide, fun t ht => .inr ?_, .inl ?_⟩
    · rw [hcreated.1, List.mem_singleton] at ht
      rw [ht]
      decide
    · rw [hcreated.2]
      decide
  refine ⟨s₀, s, Run.step hrun ha hstep, hall, fun t ht => ?_⟩
  rw [hall, List.mem_cons, List.mem_singleton] at ht
  obtain rfl | rfl := ht
  · exact h₁
  · exact h₂

/-- The child of the first task waits until the task that arrived before it has had its turn. -/
theorem run_noStarvation_busy : ∃ s₀ s seg s', Run [(s₀, forkOp)] s ∧ Steps s seg s' ∧
    seg.map Prod.snd = busyOps.reverse ∧ ∃ x ∈ s' :: seg.map Prod.fst, x.currentTask = 0x2000 := by
  obtain ⟨s₀, s, seg, s', hrun, hseg, hops, hcreated, hcur, hstate, hwaits, hlast, harrivals,
    hswitches⟩ := exists_run_busy
  have hcurrent : s.InQueue .running s.currentTask := by
    rw [hrun.inQueue_running_iff, hcur, hcreated]
    exact ⟨by decide, hstate⟩
  refine ⟨s₀, s, seg, s', hrun, hseg, hops, ?_⟩
  refine run_noStarvation (T := {0x1000, 0x2000}) hrun hcurrent hseg hlast (fun x hx => ?_)
    (fun u => ?_) ?_
  · obtain ⟨tr', hx'⟩ := hseg.run_of_mem hrun hx
    exact hx'.inQueue_running_iff.mpr (hwaits x hx)
  · have hmem : u ∈ s.created ↔ u = 0x1000 ∨ u = 0x2000 := by
      rw [hcreated, List.mem_cons, List.mem_singleton]
    rw [hrun.inQueue_running_iff, Finset.mem_insert, Finset.mem_singleton, hmem]
    refine ⟨fun hu => ⟨hu, ?_⟩, And.left⟩
    obtain rfl | rfl := hu
    · exact hstate
    · exact (hwaits s hseg.mem_states).2
  · rw [harrivals, hswitches]
    decide

end Jkos.Task
