import Jkos.Task.Schedule

/-!
# Looking up a task by its pid

`id2task` takes the first key that `find_ge` yields and does not compare its pid with
the one asked for. It therefore finds the right task, or nothing, exactly when the pid
is registered or no registered pid is larger. The pids of a running kernel have no gaps,
so its lookups are exact.
-/

namespace Jkos.Task

variable {s s' : State} {T : Finset Word} {pid : Word}

/-- The registry holds the tasks of `T`, and their pids are pairwise distinct. -/
structure Registered (s : State) (T : Finset Word) : Prop where
  tree : ∃ tr, Rbt.Holds s.rbtId2task tr ∧ Rbt.Sorted tr.keys ∧
    (tr.keys : Multiset PairIdTask) = T.val.map s.pairOf
  distinct : ∀ t ∈ T, ∀ u ∈ T, (s.task t).id = (s.task u).id → t = u
  ne_null : ∀ t ∈ T, t ≠ null

/-- The answer to a lookup: the task with that pid, or `null` if there is none. -/
def IsLookup (s : State) (T : Finset Word) (pid t : Word) : Prop :=
  (t ∈ T ∧ (s.task t).id = pid) ∨ (t = null ∧ ∀ x ∈ T, (s.task x).id ≠ pid)

/-- What exact lookup means for `id2task` and for the two calls that rest on it. -/
structure ExactLookup (s : State) (T : Finset Word) (pid : Word) : Prop where
  id2task : ∃ t, s.id2task pid = some t ∧ IsLookup s T pid t
  target : ∀ t, s.checkTarget pid = some (.ok t) → (s.task t).id = pid
  sleep : (∀ x ∈ T, (s.task x).id ≠ pid) →
    ∀ sig regs, s.sleep pid sig regs = some (s.setErrno ESRCH, -1)
  wakeup : (∀ x ∈ T, (s.task x).id ≠ pid) → s.wakeup pid = some (s.setErrno ESRCH, -1)
  sleep_state : ∀ sig regs s' r, s.sleep pid sig regs = some (s', r) →
    ∀ u, (s.task u).id ≠ pid → (s'.task u).state = (s.task u).state
  wakeup_state : ∀ s' r, s.wakeup pid = some (s', r) →
    ∀ u, (s.task u).id ≠ pid → (s'.task u).state = (s.task u).state

/-- The pid is registered, or no registered pid is larger. -/
def NoneLarger (s : State) (T : Finset Word) (pid : Word) : Prop :=
  (∃ t ∈ T, (s.task t).id = pid) ∨ ∀ t ∈ T, (s.task t).id < pid

theorem Registered.id2task (h : Registered s T) (pid : Word) :
    ∃ t, s.id2task pid = some t ∧ ((t = null ∧ ∀ x ∈ T, (s.task x).id < pid) ∨
      (t ∈ T ∧ ¬ (s.task t).id < pid ∧
        ∀ x ∈ T, ¬ (s.task x).id < pid → ¬ (s.task x).id < (s.task t).id)) := by
  obtain ⟨tr, htr, hsorted, hkeys⟩ := h.tree
  exact id2task_least htr hsorted hkeys pid

theorem Registered.isLookup_iff (h : Registered s T) (pid : Word) :
    (∃ t, s.id2task pid = some t ∧ IsLookup s T pid t) ↔ NoneLarger s T pid := by
  obtain ⟨t, ht, hcase⟩ := h.id2task pid
  constructor
  · rintro ⟨t', ht', hlookup⟩
    cases ht.symm.trans ht'
    obtain ⟨hmem, hid⟩ | ⟨hnull, -⟩ := hlookup
    · exact .inl ⟨t, hmem, hid⟩
    · obtain ⟨-, hall⟩ | ⟨hmem, -⟩ := hcase
      · exact .inr hall
      · exact absurd hnull (h.ne_null t hmem)
  · intro hpid
    refine ⟨t, ht, ?_⟩
    obtain ⟨x, hx, rfl⟩ | hall := hpid
    · obtain ⟨-, hlt⟩ | ⟨hmem, hge, hleast⟩ := hcase
      · exact absurd (hlt x hx) (BitVec.lt_irrefl _)
      · -- the least pid that is not less is the pid itself
        have hle := hleast x hx (BitVec.lt_irrefl _)
        refine .inl ⟨hmem, ?_⟩
        rw [BitVec.lt_def] at hge hle
        exact BitVec.eq_of_toNat_eq (by omega)
    · obtain ⟨hnull, -⟩ | ⟨hmem, hge, -⟩ := hcase
      · refine .inr ⟨hnull, fun x hx hid => ?_⟩
        have hlt := hall x hx
        rw [hid] at hlt
        exact BitVec.lt_irrefl _ hlt
      · exact absurd (hall t hmem) hge

/-- The answer of `id2task` is the only task that a call can be applied to. -/
theorem id2task_of_checkTarget {t : Word} (h : s.checkTarget pid = some (.ok t)) :
    s.id2task pid = some t ∧ t ≠ null := by
  simp only [State.checkTarget] at h
  split at h
  · cases h
  · next target htarget =>
      split at h
      · cases h
      · next hnot =>
          split at h
          · cases h
          · cases h
            exact ⟨htarget, fun e => hnot (.inl e)⟩

theorem checkTarget_of_absent (h : s.id2task pid = some null) :
    s.checkTarget pid = some (.error ESRCH) := by
  simp [State.checkTarget, h]

/-! ## The states of other tasks -/

theorem state_setErrno (s : State) (errno : Int) (u : Word) :
    ((s.setErrno errno).task u).state = (s.task u).state := by
  simp only [State.setErrno, State.task_modify]
  split
  · next hu => rw [hu]
  · rfl

theorem task_modify_of_ne {p u : Word} (h : u ≠ p) (s : State) (f : TaskT → TaskT) :
    (s.modify p f).task u = s.task u := if_neg h

theorem state_sleep (htarget : ∀ t, s.checkTarget pid = some (.ok t) → (s.task t).id = pid)
    {sig : Word} {regs : Registers} {r : Int} (h : s.sleep pid sig regs = some (s', r)) {u : Word}
    (hu : (s.task u).id ≠ pid) : (s'.task u).state = (s.task u).state := by
  simp only [State.sleep] at h
  split at h
  · cases h
  · cases h
    exact state_setErrno s _ u
  · next target hcheck =>
      have hne : u ≠ target := fun e => hu (e ▸ htarget target hcheck)
      split at h
      · split at h
        · cases h
        · next s₁ hremove =>
            have hsame := (sameTasks_removeQueue hremove).trans
              (sameTasks_insertQueue s₁ .sleeping target)
            have hmove : (((s₁.insertQueue .sleeping target).modify target
                ({ · with state := .sleeping, sigWakeup := sig })).task u).state =
                (s.task u).state := by
              rw [task_modify_of_ne hne]
              exact hsame.state u
            split at h
            · next hcur =>
                cases h
                simp only [← hcur, State.switchTask, task_modify_of_ne hne] at hmove ⊢
                exact hmove
            · cases h
              exact hmove
      · cases h
        rfl

theorem state_wakeup (htarget : ∀ t, s.checkTarget pid = some (.ok t) → (s.task t).id = pid)
    {r : Int} (h : s.wakeup pid = some (s', r)) {u : Word} (hu : (s.task u).id ≠ pid) :
    (s'.task u).state = (s.task u).state := by
  simp only [State.wakeup] at h
  split at h
  · cases h
  · cases h
    exact state_setErrno s _ u
  · next target hcheck =>
      have hne : u ≠ target := fun e => hu (e ▸ htarget target hcheck)
      split at h
      · split at h
        · cases h
        · next s₁ hremove =>
            cases h
            rw [task_modify_of_ne hne]
            exact ((sameTasks_removeQueue hremove).trans
              (sameTasks_insertQueue s₁ .running target)).state u
      · cases h
        rfl

/-! ## Exact lookup -/

theorem Registered.exactLookup (h : Registered s T) (hpid : NoneLarger s T pid) :
    ExactLookup s T pid := by
  have hlookup := (h.isLookup_iff pid).mpr hpid
  obtain ⟨t, ht, hcase⟩ := hlookup
  have htarget : ∀ t, s.checkTarget pid = some (.ok t) → (s.task t).id = pid := by
    intro t' hcheck
    obtain ⟨ht', hne⟩ := id2task_of_checkTarget hcheck
    cases ht.symm.trans ht'
    obtain ⟨-, hid⟩ | ⟨hnull, -⟩ := hcase
    · exact hid
    · exact absurd hnull hne
  have habsent : (∀ x ∈ T, (s.task x).id ≠ pid) → s.checkTarget pid = some (.error ESRCH) := by
    intro hnone
    obtain ⟨hmem, hid⟩ | ⟨rfl, -⟩ := hcase
    · exact absurd hid (hnone t hmem)
    · exact checkTarget_of_absent ht
  constructor
  case id2task => exact ⟨t, ht, hcase⟩
  case target => exact htarget
  case sleep => exact fun hnone sig regs => by rw [State.sleep, habsent hnone]
  case wakeup => exact fun hnone => by rw [State.wakeup, habsent hnone]
  case sleep_state => exact fun sig regs s' r he u hu => state_sleep htarget he hu
  case wakeup_state => exact fun s' r he u hu => state_wakeup htarget he hu

/-- The tasks of a running kernel have the pids 0, 1, 2, … . -/
theorem Registry.noneLarger (h : Registry s) (pid : Word) :
    NoneLarger s s.created.toFinset pid := by
  by_cases hlt : pid.toNat < s.created.length
  · have hmem : pid.toNat ∈ s.created.map (fun t => (s.task t).id.toNat) := by
      rw [h.ids]
      exact List.mem_range.mpr hlt
    obtain ⟨t, ht, hid⟩ := List.mem_map.mp hmem
    exact .inl ⟨t, List.mem_toFinset.mpr ht, BitVec.eq_of_toNat_eq hid⟩
  · refine .inr fun t ht => ?_
    have hid := h.id_lt (List.mem_toFinset.mp ht)
    rw [BitVec.lt_def]
    omega

theorem Registry.registered (h : Registry s) (hp : Placed s) :
    Registered s s.created.toFinset := by
  obtain ⟨tr, htr, hsorted, hkeys, -⟩ := h.tree
  refine ⟨⟨tr, htr, hsorted, ?_⟩, fun t ht u hu hid => ?_, fun t ht => ?_⟩
  · rw [List.toFinset_val, hp.nodup.dedup, hkeys]
    rfl
  · have hnodup : (s.created.map (fun t => (s.task t).id.toNat)).Nodup := by
      rw [h.ids]
      exact List.nodup_range
    exact List.inj_on_of_nodup_map hnodup (List.mem_toFinset.mp ht) (List.mem_toFinset.mp hu)
      (congrArg BitVec.toNat hid)
  · exact hp.ne_null t (List.mem_toFinset.mp ht)

/-- In every history of the kernel, every lookup is exact. -/
theorem run_exactLookup {tr : List (State × Op)} (h : Run tr s) (pid : Word) :
    ExactLookup s s.created.toFinset pid := by
  obtain ⟨ring, hinv⟩ := h.inv
  exact (hinv.registry.registered hinv.placed).exactLookup (hinv.registry.noneLarger pid)

/-- Lookups of a pid are exact if and only if it is registered or none is larger. -/
theorem exactLookup_iff (h : Registered s T) (pid : Word) :
    ExactLookup s T pid ↔ NoneLarger s T pid :=
  ⟨fun hexact => (h.isLookup_iff pid).mp hexact.id2task, h.exactLookup⟩

/-! ## A registry with a gap -/

/-- A registry whose only tasks are the ones at `0x1000` and `0x2000`, with the pids 0
and 2. -/
theorem exists_gap : ∃ s : State, Registered s {0x1000, 0x2000} ∧
    (s.task 0x1000).id = 0 ∧ (s.task 0x2000).id = 2 := by
  let r₀ : Rbt.State PairIdTask := Rbt.State.new 8 (fun _ => ⟨0, 0, fun _ => 0, ⟨0, 0⟩⟩)
  obtain ⟨t₀, h₀, hlocs₀, hkeys₀⟩ : ∃ t₀, Rbt.Holds r₀ t₀ ∧ t₀.locs = [] ∧ t₀.keys = [] :=
    ⟨.nil, Rbt.Holds.new (by decide) (by decide) _, rfl, rfl⟩
  have ha₀ : r₀.Allocatable 0x10 := by
    refine ⟨show (0x10 : Word) ≠ 8 by decide, by decide, by decide, fun hn => ?_⟩
    have hmem := h₀.zip.isNode_iff.mp hn
    simp [hlocs₀] at hmem
  obtain ⟨r₁, t₁, -, h₁, hsorted₁, hkeys₁, hperm₁, hnil₁⟩ :=
    h₀.insert_sorted (by simp [Rbt.Sorted, hkeys₀]) ⟨0, 0x1000⟩ ha₀
  have ha₁ : r₁.Allocatable 0x20 := by
    refine ⟨hnil₁ ▸ show (0x20 : Word) ≠ 8 by decide, by decide, by decide, fun hn => ?_⟩
    have hmem := hperm₁.mem_iff.mp (h₁.zip.isNode_iff.mp hn)
    simp [hlocs₀] at hmem
  obtain ⟨r₂, t₂, -, h₂, hsorted₂, hkeys₂, -, -⟩ :=
    h₁.insert_sorted hsorted₁ ⟨2, 0x2000⟩ ha₁
  let s : State := { zeroBoot with
    task := fun t => { zeroBoot.task t with id := if t = 0x1000 then 0 else 2 }
    rbtId2task := r₂ }
  refine ⟨s, ⟨⟨t₂, h₂, hsorted₂, ?_⟩, ?_, ?_⟩, rfl, rfl⟩
  · have hpair : s.pairOf 0x1000 = ⟨0, 0x1000⟩ ∧ s.pairOf 0x2000 = ⟨2, 0x2000⟩ := ⟨rfl, rfl⟩
    rw [hkeys₂, hkeys₁, hkeys₀, Finset.insert_val_of_notMem (by decide), Finset.singleton_val,
      Multiset.map_cons, Multiset.map_singleton, hpair.1, hpair.2]
    exact Multiset.cons_swap _ _ _
  · simp [s]
  · simp

/-- Pid 1 is not registered, but a lookup finds the task with pid 2. -/
theorem lookup_past_gap : ∃ s : State, Registered s {0x1000, 0x2000} ∧
    (s.task 0x1000).id = 0 ∧ (s.task 0x2000).id = 2 ∧
    ¬ ExactLookup s {0x1000, 0x2000} 1 := by
  obtain ⟨s, hs, h₀, h₂⟩ := exists_gap
  refine ⟨s, hs, h₀, h₂, fun hexact => ?_⟩
  obtain ⟨x, hx, hid⟩ | hall := (hs.isLookup_iff 1).mp hexact.id2task
  · simp only [Finset.mem_insert, Finset.mem_singleton] at hx
    obtain rfl | rfl := hx
    · exact absurd (h₀.symm.trans hid) (by decide)
    · exact absurd (h₂.symm.trans hid) (by decide)
  · have hlt := hall 0x2000 (by simp)
    rw [h₂] at hlt
    exact absurd hlt (by decide)

theorem exactLookup_iff_gap : ∃ s : State, Registered s {0x1000, 0x2000} ∧
    ExactLookup s {0x1000, 0x2000} 3 := by
  obtain ⟨s, hs, h₀, h₂⟩ := exists_gap
  refine ⟨s, hs, (exactLookup_iff hs 3).mpr (.inr fun t ht => ?_)⟩
  simp only [Finset.mem_insert, Finset.mem_singleton] at ht
  obtain rfl | rfl := ht
  · rw [h₀]
    decide
  · rw [h₂]
    decide

end Jkos.Task
