import Jkos.Task.Queue

/-!
# The task registry

The registry maps the pids 0, 1, 2, … to the tasks in the order of their creation.
A pid is never reused and the counter never wraps, because distinct tasks occupy
distinct memory.
-/

namespace Jkos.Task

variable {s s' : State} {this : Word}

/-- The registry node inside a task. -/
def nodeOf (this : Word) : Word :=
  let addr := this + rbtNodeMem
  addr + (addr &&& 1)

/-- The registry entry of a task. -/
def State.pairOf (s : State) (t : Word) : PairIdTask := ⟨(s.task t).id, t⟩

/-- The memory of the tasks created so far. -/
structure Placed (s : State) : Prop where
  nodup : s.created.Nodup
  ne_null : ∀ t ∈ s.created, t ≠ null
  fits : ∀ t ∈ s.created, t.toNat + sizeofTask ≤ 2 ^ 32

/-- The registry holds exactly the tasks created so far, numbered in order. -/
structure Registry (s : State) : Prop where
  nextPid : s.nextPid.toNat = s.created.length
  ids : s.created.map (fun t => (s.task t).id.toNat) = List.range s.created.length
  tree : ∃ t, Rbt.Holds s.rbtId2task t ∧ Rbt.Sorted t.keys ∧
    (t.keys : Multiset PairIdTask) = s.created.map s.pairOf ∧
    ∀ n ∈ t.locs, ∃ x ∈ s.created, n = nodeOf x

theorem toNat_nodeOf (h : this.toNat + sizeofTask ≤ 2 ^ 32) :
    (nodeOf this).toNat = this.toNat + 52 ∨ (nodeOf this).toNat = this.toNat + 53 := by
  have hlow : ((this + 52 : Word) &&& 1).toNat = (this + 52 : Word).toNat % 2 := by
    rw [BitVec.toNat_and]
    exact Nat.and_one_is_mod _
  rw [sizeofTask] at h
  have haddr : (this + 52 : Word).toNat = this.toNat + 52 := by
    rw [BitVec.toNat_add]
    exact Nat.mod_eq_of_lt (by simp; omega)
  simp only [nodeOf, rbtNodeMem, BitVec.toNat_add (this + 52), hlow, haddr]
  omega

theorem isEven_nodeOf (this : Word) : IsEven (nodeOf this) := by
  have key : ∀ a : Word, IsEven (a + (a &&& 1)) := by
    intro a
    have hlow : (a &&& 1).toNat = a.toNat % 2 := by
      rw [BitVec.toNat_and]
      exact Nat.and_one_is_mod _
    rw [IsEven, BitVec.getLsbD, Nat.testBit_zero, BitVec.toNat_add, hlow]
    simp only [decide_eq_false_iff_not]
    omega
  exact key _

theorem Registry.id_lt (h : Registry s) {t : Word} (ht : t ∈ s.created) :
    (s.task t).id.toNat < s.created.length := by
  have hmem : (s.task t).id.toNat ∈ s.created.map (fun t => (s.task t).id.toNat) :=
    List.mem_map_of_mem ht
  rw [h.ids] at hmem
  exact List.mem_range.mp hmem

/-- `id2task`: a registered task with the least pid that is not less than the one asked
for, or `null` if there is none. -/
theorem id2task_least {tr : RedBlack.RbTree Word PairIdTask} (htr : Rbt.Holds s.rbtId2task tr)
    (hsorted : Rbt.Sorted tr.keys) {T : Multiset Word}
    (hkeys : (tr.keys : Multiset PairIdTask) = T.map s.pairOf) (pid : Word) :
    ∃ t, s.id2task pid = some t ∧ ((t = null ∧ ∀ x ∈ T, (s.task x).id < pid) ∨
      (t ∈ T ∧ ¬ (s.task t).id < pid ∧
        ∀ x ∈ T, ¬ (s.task x).id < pid → ¬ (s.task x).id < (s.task t).id)) := by
  have hmem : ∀ k, k ∈ tr.keys ↔ k ∈ T.map s.pairOf := by
    intro k
    rw [← hkeys, Multiset.mem_coe]
  obtain ⟨p, hp, ⟨rfl, hall⟩ | ⟨hnode, hkey, hge, hleast⟩⟩ := htr.findGe hsorted ⟨pid, null⟩
  · refine ⟨null, by rw [State.id2task, hp]; rfl, .inl ⟨rfl, fun x hx => ?_⟩⟩
    exact hall (s.pairOf x) ((hmem _).mpr (Multiset.mem_map_of_mem _ hx))
  · have hne : p ≠ null := (htr.zip.node_ok (c := []) (htr.zip.isNode_iff.mp hnode)).2.1
    obtain ⟨x, hx, hpair⟩ := Multiset.mem_map.mp ((hmem _).mp hkey)
    rw [← hpair] at hge hleast
    refine ⟨x, ?_, .inr ⟨hx, hge, fun y hy => ?_⟩⟩
    · simp only [State.id2task, hp, Option.map_some, if_neg hne, ← hpair]
      rfl
    · exact hleast (s.pairOf y) ((hmem _).mpr (Multiset.mem_map_of_mem _ hy))

/-- A created task whose pid is not less, or `null` if there is none. -/
theorem Registry.id2task (h : Registry s) (pid : Word) :
    ∃ t, s.id2task pid = some t ∧ ((t = null ∧ ∀ x ∈ s.created, (s.task x).id < pid) ∨
      (t ∈ s.created ∧ ¬ (s.task t).id < pid)) := by
  obtain ⟨tr, htr, hsorted, hkeys, -⟩ := h.tree
  obtain ⟨t, ht, hnull | ⟨hmem, hge, -⟩⟩ :=
    id2task_least (T := (s.created : Multiset Word)) htr hsorted hkeys pid
  · exact ⟨t, ht, .inl hnull⟩
  · exact ⟨t, ht, .inr ⟨hmem, hge⟩⟩

/-- `get_next_pid` returns the counter: no task has that pid or a larger one. -/
theorem Registry.getNextPid (h : Registry s) :
    s.getNextPid = some ({ s with nextPid := s.nextPid + 1 }, s.nextPid) := by
  obtain ⟨t, ht, ⟨rfl, -⟩ | ⟨hmem, hge⟩⟩ := h.id2task s.nextPid
  · have hbound : loopBound = (loopBound - 1) + 1 := by decide
    rw [State.getNextPid, hbound, State.skipPids, ht]
    rfl
  · have hlt := h.id_lt hmem
    rw [BitVec.lt_def, h.nextPid] at hge
    exact absurd hlt hge

/-- The number of tasks stays below the number of addresses. -/
theorem Placed.length_lt (h : Placed s) : s.created.length < 2 ^ 32 :=
  length_lt_loopBound h.nodup (fun hnull => h.ne_null null hnull rfl)

theorem State.Allocatable.notMem (ha : s.Allocatable this) : this ∉ s.created := by
  intro hmem
  have := ha.apart this hmem
  rw [sizeofTask] at this
  omega

theorem State.Allocatable.placed (ha : s.Allocatable this) (h : Placed s)
    (hc : s'.created = s.created ++ [this]) : Placed s' := by
  have hmem : ∀ t ∈ s'.created, t ∈ s.created ∨ t = this := by
    intro t ht
    simpa [hc] using ht
  refine ⟨?_, fun t ht => ?_, fun t ht => ?_⟩
  · rw [hc, (List.perm_append_singleton this s.created).nodup_iff]
    exact List.nodup_cons.mpr ⟨ha.notMem, h.nodup⟩
  · rcases hmem t ht with ht | rfl
    · exact h.ne_null t ht
    · exact ha.ne_null
  · rcases hmem t ht with ht | rfl
    · exact h.fits t ht
    · exact ha.fits

/-- The registry node of a new task can be inserted. -/
theorem Registry.node_allocatable (h : Registry s) (hp : Placed s) (ha : s.Allocatable this) :
    s.rbtId2task.Allocatable (nodeOf this) := by
  obtain ⟨tr, htr, -, -, hlocs⟩ := h.tree
  have hnode := toNat_nodeOf ha.fits
  have hsentinel := ha.sentinel
  have hnil := s.rbtId2task.nil.isLt
  rw [sizeofTask] at hsentinel
  refine ⟨fun e => ?_, fun e => ?_, isEven_nodeOf this, fun hn => ?_⟩
  · rw [e] at hnode
    omega
  · rw [e] at hnode
    simp at hnode
  · obtain ⟨x, hx, e⟩ := hlocs _ (htr.zip.isNode_iff.mp hn)
    have hnode' := toNat_nodeOf (hp.fits x hx)
    have hapart := ha.apart x hx
    rw [e] at hnode
    rw [sizeofTask] at hapart
    omega

/-- The control block that the constructor writes. -/
def State.blank (s : State) (this dir : Word) : TaskT :=
  { id := s.nextPid, regs := ⟨0, 0, 0⟩, pageDir := dir, state := .running
    uid := (s.task this).uid, gid := (s.task this).gid, errno := 0, par := null
    queueNext := null, queuePrev := null, sigWakeup := 0 }

/-- The constructor writes the control block and registers the task under the next pid. -/
theorem Registry.newTask (h : Registry s) (hp : Placed s) (ha : s.Allocatable this) (dir : Word) :
    ∃ s', s.newTask this dir = some s' ∧ Registry s' ∧ Placed s' ∧
      s'.created = s.created ++ [this] ∧ s'.queue = s.queue ∧ s'.currentTask = s.currentTask ∧
      s'.currentPageDir = s.currentPageDir ∧
      s'.task = fun t => if t = this then s.blank this dir else s.task t := by
  obtain ⟨tr, htr, hsorted, hkeys, hlocs⟩ := h.tree
  obtain ⟨r, tr', hins, htr', hsorted', hkeys', hperm, -⟩ :=
    htr.insert_sorted hsorted ⟨s.nextPid, this⟩ (h.node_allocatable hp ha)
  set s' : State := { s with
    task := fun t => if t = this then s.blank this dir else s.task t
    rbtId2task := r
    latestTask := this
    nextPid := s.nextPid + 1
    created := s.created ++ [this] } with hs'
  have hother : ∀ t ∈ s.created, s'.task t = s.task t := by
    intro t ht
    exact if_neg (fun e : t = this => ha.notMem (e ▸ ht))
  have hthis : s'.task this = s.blank this dir := if_pos rfl
  have hplaced : Placed s' := ha.placed hp rfl
  have hlen := hplaced.length_lt
  rw [hs', List.length_append, List.length_singleton] at hlen
  refine ⟨s', ?_, ⟨?_, ?_, tr', htr', hsorted', ?_, ?_⟩, hplaced, rfl, rfl, rfl, rfl, rfl⟩
  · rw [State.newTask, h.getNextPid]
    have hnode : State.rbtAlloc { s with latestTask := this } = nodeOf this := rfl
    simp only [State.rbtAlloc, State.modify] at hnode ⊢
    rw [hnode, hins]
    rfl
  · rw [hs', List.length_append, List.length_singleton]
    change (s.nextPid + 1).toNat = _
    rw [BitVec.toNat_add, h.nextPid]
    exact Nat.mod_eq_of_lt hlen
  · rw [hs', List.length_append, List.length_singleton, List.range_succ, List.map_append, ← h.ids]
    congr 1
    · exact List.map_congr_left fun t ht => by rw [← hs', hother t ht]
    · rw [← hs', List.map_singleton, hthis]
      simp [State.blank, h.nextPid]
  · have hmap : (s.created ++ [this]).map s'.pairOf =
        s.created.map s.pairOf ++ [⟨s.nextPid, this⟩] := by
      rw [List.map_append, List.map_singleton]
      congr 1
      · exact List.map_congr_left fun t ht => by rw [State.pairOf, State.pairOf, hother t ht]
      · rw [State.pairOf, hthis]
        rfl
    change _ = ((((s.created ++ [this]).map s'.pairOf) : List PairIdTask) : Multiset PairIdTask)
    rw [hmap, hkeys', hkeys, Multiset.cons_coe, Multiset.coe_eq_coe]
    exact (List.perm_append_singleton _ _).symm
  · intro n hn
    rcases List.mem_cons.mp (hperm.mem_iff.mp hn) with rfl | hn
    · exact ⟨this, by simp [hs'], rfl⟩
    · obtain ⟨x, hx, e⟩ := hlocs n hn
      exact ⟨x, by simp [hs', hx], e⟩

/-- The registry depends on the pids, the tree, the counter and nothing else. -/
theorem Registry.congr (h : Registry s) (hc : s'.created = s.created)
    (hid : ∀ t ∈ s.created, (s'.task t).id = (s.task t).id)
    (hr : s'.rbtId2task = s.rbtId2task) (hn : s'.nextPid = s.nextPid) : Registry s' := by
  obtain ⟨tr, htr, hsorted, hkeys, hlocs⟩ := h.tree
  refine ⟨by rw [hc, hn, h.nextPid], ?_, tr, hr ▸ htr, hsorted, ?_, hc ▸ hlocs⟩
  · rw [hc, ← h.ids]
    exact List.map_congr_left fun t ht => by rw [hid t ht]
  · rw [hkeys, hc]
    congr 1
    exact List.map_congr_left fun t ht => by rw [State.pairOf, State.pairOf, hid t ht]

theorem Placed.congr (h : Placed s) (hc : s'.created = s.created) : Placed s' :=
  ⟨hc ▸ h.nodup, hc ▸ h.ne_null, hc ▸ h.fits⟩

end Jkos.Task
