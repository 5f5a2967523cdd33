import Jkos.Task.Schedule

/-!
# Round robin

As long as nothing but `schedule` is called, the tasks of the running queue take turns in
the order of the ring, each of them once before any of them comes again.
-/

namespace Jkos.Task

open LinkedRing

variable {s s' : State} {ring : Queue → Cycle Word} {t : Word}

/-- The tasks that become current in consecutive calls of `schedule`, one for each element
of the list: the registers that the call saves. -/
def State.turns (s : State) : List Registers → List Word
  | [] => []
  | regs :: rest => (s.schedule regs).currentTask :: (s.schedule regs).turns rest

/-- The state after these calls. -/
def State.schedules (s : State) (calls : List Registers) : State := calls.foldl State.schedule s

/-- In these calls every running task becomes current exactly once, and the last of them is
the task that was current before. -/
structure RoundRobin (s : State) (calls : List Registers) : Prop where
  once : (s.turns calls).Nodup
  all : ∀ t, t ∈ s.turns calls ↔ s.InQueue .running t
  back : (s.schedules calls).currentTask = s.currentTask

/-- The turns follow the forward links. -/
theorem Inv.turns_eq (h : Inv s ring) (calls : List Registers) :
    s.turns calls =
      List.iterate s.links.next (s.links.next s.currentTask) calls.length := by
  induction calls generalizing s with
  | nil => rfl
  | cons regs rest ih =>
      obtain ⟨hinv, hshape, hcur⟩ := h.schedule regs
      have hlinks : (s.schedule regs).links.next = s.links.next := funext hshape.next
      have hnext : (s.schedule regs).currentTask = s.links.next s.currentTask := hcur
      rw [State.turns, ih hinv, hlinks, hnext, List.length_cons, List.iterate]

theorem State.currentTask_schedules (s : State) (calls : List Registers) :
    (s.schedules calls).currentTask = (s.currentTask :: s.turns calls).getLast (by simp) := by
  induction calls generalizing s with
  | nil => rfl
  | cons regs rest ih =>
      have hrest := ih (s.schedule regs)
      rw [turns, List.getLast_cons_cons]
      exact hrest

/-- As many calls as there are running tasks, from a state whose current task is one of
them. -/
theorem run_roundRobin {tr : List (State × Op)} (h : Run tr s)
    (hcur : s.InQueue .running s.currentTask) :
    ∃ T : Finset Word, (∀ t, t ∈ T ↔ s.InQueue .running t) ∧ 1 ≤ T.card ∧
      ∀ calls : List Registers, calls.length = T.card → RoundRobin s calls := by
  obtain ⟨ring, hinv⟩ := h.inv
  have hmem : s.currentTask ∈ ring .running := hinv.rings.inQueue_iff.mp hcur
  have hring := hinv.rings.isRing .running
  obtain ⟨l, hl⟩ := exists_cons_of_mem hmem
  rw [hl] at hring
  have hnodup : (l ++ [s.currentTask]).Nodup := by
    obtain ⟨hnot, hnd⟩ := hring.nodup_cons
    exact List.nodup_append_comm.mp (List.nodup_cons.mpr ⟨hnot, hnd⟩)
  have hall : ∀ t, t ∈ l ++ [s.currentTask] ↔ s.InQueue .running t := by
    intro t
    rw [hinv.rings.inQueue_iff, hl, Cycle.mem_coe_iff, List.mem_cons, List.mem_append,
      List.mem_singleton, or_comm]
  have hcard : (l ++ [s.currentTask]).toFinset.card = l.length + 1 := by
    rw [List.toFinset_card_of_nodup hnodup, List.length_append, List.length_singleton]
  refine ⟨(l ++ [s.currentTask]).toFinset, fun t => ?_, ?_, fun calls hcalls => ?_⟩
  · rw [List.mem_toFinset, hall]
  · rw [hcard]
    exact Nat.le_add_left 1 _
  · have hturns : s.turns calls = l ++ [s.currentTask] := by
      rw [hinv.turns_eq, hcalls, hcard, hring.iterate_next_eq]
    refine ⟨by rwa [hturns], fun t => by rw [hturns, hall], ?_⟩
    rw [s.currentTask_schedules]
    simp [hturns]

/-- The first task and its child take turns. -/
theorem run_roundRobin_fork : ∃ tr s, Run tr s ∧
    tr.map Prod.snd = [.fork 0x2000 0 ⟨0, 0, 0⟩] ∧ ∃ T : Finset Word,
      (∀ t, t ∈ T ↔ s.InQueue .running t) ∧ 1 ≤ T.card ∧
        ∀ calls : List Registers, calls.length = T.card → RoundRobin s calls := by
  obtain ⟨s₀, hrun, hinit⟩ := exists_run_init
  have heval : ((zeroBoot.init 0x1000 ⟨0, 0, 0⟩).bind
      (·.step (.fork 0x2000 0 ⟨0, 0, 0⟩))).map (fun s => (s.task s.currentTask).state) =
      some .running := by
    decide
  have hcreated : (zeroBoot.init 0x1000 ⟨0, 0, 0⟩).map (fun s => (s.created, s.rbtId2task.nil)) =
      some ([0x1000], 8) := by
    decide
  rw [hinit, Option.map_some, Option.some.injEq, Prod.mk.injEq] at hcreated
  rw [hinit] at heval
  simp only [Option.map_eq_some_iff, Option.bind_eq_some_iff, Option.some.injEq] at heval
  obtain ⟨s, ⟨_, rfl, hstep⟩, hstate⟩ := heval
  have ha : s₀.Allocatable 0x2000 := by
    refine ⟨by decide, by decide, fun t ht => .inr ?_, .inl ?_⟩
    · rw [hcreated.1, List.mem_singleton] at ht
      rw [ht]
      decide
    · rw [hcreated.2]
      decide
  have hrun' : Run ((s₀, .fork 0x2000 0 ⟨0, 0, 0⟩) :: []) s := Run.step hrun ha hstep
  obtain ⟨ring, hinv⟩ := hrun'.inv
  exact ⟨_, s, hrun', rfl, run_roundRobin hrun' (hinv.currentRuns_iff.mpr hstate).2⟩

end Jkos.Task
