import Jkos.Kheap.Tree

/-!
# The node pool and the two trees

The nodes in use, those on the stack of freed ones and the part of `static_mem` that
was never handed out are kept apart, so a node that the pool returns is fresh for both
trees. `Stores T T' h ks ks'` says that the trees hold the keys `ks` and `ks'`; it is
symmetric in the two trees, and every tree operation is described once for both.
-/

namespace Jkos.Kheap

open Exec RedBlack

/-- The `i`-th node of the pool. -/
def Pool.nodeAt (p : Pool) (i : Nat) : Word := p.staticMem + BitVec.ofNat 32 (treeNodeSize * i)

/-- The nodes handed out so far are `used`, up to those returned. -/
structure PoolOk (p : Pool) (used : List Word) : Prop where
  even : IsEven p.staticMem
  ne_null : p.staticMem ≠ null
  fits : p.staticMem.toNat + staticMemSize ≤ 2 ^ 32
  carved : ∃ n, p.nstaticMem = treeNodeSize * n ∧ n < 1024 ∧
    (used ++ p.freed).Perm ((List.range n).map p.nodeAt)

/-- An address outside `static_mem`, such as that of a sentinel. -/
def Pool.Outside (p : Pool) (a : Word) : Prop :=
  a.toNat < p.staticMem.toNat ∨ p.staticMem.toNat + staticMemSize ≤ a.toNat

namespace PoolOk

variable {p : Pool} {used : List Word}

theorem toNat_nodeAt (h : PoolOk p used) {i : Nat} (hi : i < 1024) :
    (p.nodeAt i).toNat = p.staticMem.toNat + 20 * i := by
  have hfits := h.fits
  rw [staticMemSize, treeNodeSize] at hfits
  rw [Pool.nodeAt, treeNodeSize, BitVec.toNat_add, BitVec.toNat_ofNat]
  omega

theorem perm (h : PoolOk p used) {used' : List Word} (hp : used.Perm used') : PoolOk p used' := by
  obtain ⟨n, hn, hlt, hperm⟩ := h.carved
  exact ⟨h.even, h.ne_null, h.fits, n, hn, hlt, (hp.symm.append_right _).trans hperm⟩

/-- Every node of the pool is a usable address inside `static_mem`. -/
theorem node_ok (h : PoolOk p used) {i : Nat} (hi : i < 1024) :
    IsEven (p.nodeAt i) ∧ p.nodeAt i ≠ null ∧ ¬ p.Outside (p.nodeAt i) := by
  have hnat := h.toNat_nodeAt hi
  have heven := h.even
  rw [IsEven, BitVec.getLsbD, Nat.testBit_zero, decide_eq_false_iff_not] at heven
  refine ⟨?_, fun e => ?_, fun hout => ?_⟩
  · rw [IsEven, BitVec.getLsbD, Nat.testBit_zero, hnat, decide_eq_false_iff_not]
    omega
  · have hzero : p.staticMem.toNat = 0 := by
      rw [e] at hnat
      simp at hnat
      omega
    exact h.ne_null (BitVec.eq_of_toNat_eq hzero)
  · rw [Pool.Outside, hnat, staticMemSize, treeNodeSize] at hout
    omega

theorem mem_carved (h : PoolOk p used) {a : Word} (ha : a ∈ used ++ p.freed) :
    ∃ i < 1024, a = p.nodeAt i := by
  obtain ⟨n, -, hlt, hperm⟩ := h.carved
  obtain ⟨i, hi, rfl⟩ := List.mem_map.mp (hperm.mem_iff.mp ha)
  exact ⟨i, (List.mem_range.mp hi).trans hlt, rfl⟩

theorem nodup (h : PoolOk p used) : (used ++ p.freed).Nodup := by
  obtain ⟨n, -, hlt, hperm⟩ := h.carved
  rw [hperm.nodup_iff]
  refine List.Nodup.map_on (fun i hi j hj e => ?_) List.nodup_range
  have hi' := h.toNat_nodeAt ((List.mem_range.mp hi).trans hlt)
  have hj' := h.toNat_nodeAt ((List.mem_range.mp hj).trans hlt)
  rw [e] at hi'
  omega

/-- What `Tree_mm::alloc` returns: a node that is in use nowhere. -/
structure Alloced (p p' : Pool) (a : Word) (used : List Word) : Prop where
  pool : PoolOk p' (a :: used)
  staticMem : p'.staticMem = p.staticMem
  even : IsEven a
  ne_null : a ≠ null
  inside : ¬ p.Outside a
  fresh : a ∉ used

theorem alloc (h : PoolOk p used) :
    (∃ a p', p.alloc = .ok (a, p') ∧ Alloced p p' a used) ∨ p.alloc = .error .outOfNodes := by
  obtain ⟨n, hn, hlt, hperm⟩ := h.carved
  cases hf : p.freed with
  | cons a freed =>
      refine .inl ⟨a, { p with freed := freed }, by simp [Pool.alloc, hf], ?_⟩
      have hperm' : (a :: used ++ freed).Perm (used ++ p.freed) := by
        rw [hf]
        exact List.perm_middle.symm
      obtain ⟨i, hi, rfl⟩ := h.mem_carved (a := a) (by simp [hf])
      obtain ⟨heven, hne, hin⟩ := h.node_ok hi
      have hfresh : p.nodeAt i ∉ used := by
        have hnodup := hperm'.nodup_iff.mpr h.nodup
        simp only [List.cons_append, List.nodup_cons, List.mem_append, not_or] at hnodup
        exact hnodup.1.1
      exact ⟨⟨h.even, h.ne_null, h.fits, n, hn, hlt, hperm'.trans hperm⟩, rfl, heven, hne, hin,
        hfresh⟩
  | nil =>
      by_cases hfull : p.nstaticMem + treeNodeSize ≥ staticMemSize
      · exact .inr (by simp [Pool.alloc, hf, hfull])
      · have hn' : n + 1 < 1024 := by
          rw [hn, staticMemSize, treeNodeSize] at hfull
          omega
        have hnode : p.staticMem + BitVec.ofNat 32 p.nstaticMem = p.nodeAt n := by
          rw [Pool.nodeAt, hn]
        obtain ⟨heven, hne, hin⟩ := h.node_ok hlt
        refine .inl ⟨p.nodeAt n, { p with nstaticMem := p.nstaticMem + treeNodeSize },
          by simp [Pool.alloc, hf, hfull, hnode], ?_⟩
        have hfresh : p.nodeAt n ∉ used := by
          intro hmem
          have hmem' := hperm.mem_iff.mp (List.mem_append_left _ hmem)
          obtain ⟨i, hi, e⟩ := List.mem_map.mp hmem'
          have hi' := h.toNat_nodeAt ((List.mem_range.mp hi).trans hlt)
          rw [e, h.toNat_nodeAt hlt] at hi'
          have := List.mem_range.mp hi
          omega
        refine ⟨⟨h.even, h.ne_null, h.fits, n + 1, by simp only [hn, Nat.mul_succ], hn', ?_⟩, rfl,
          heven, hne, hin, hfresh⟩
        rw [hf, List.append_nil] at hperm
        rw [hf, List.append_nil, List.range_succ, List.map_append, List.map_singleton]
        exact (hperm.cons _).trans (List.perm_append_singleton _ _).symm

/-- The pool is used up when all of its nodes but one are in use. -/
theorem alloc_eq_error_iff (h : PoolOk p used) :
    p.alloc = .error .outOfNodes ↔ used.length = 1023 := by
  obtain ⟨n, hn, hlt, hperm⟩ := h.carved
  have hlen : used.length + p.freed.length = n := by simpa using hperm.length_eq
  have hfull : p.nstaticMem + treeNodeSize ≥ staticMemSize ↔ n = 1023 := by
    rw [hn, staticMemSize, treeNodeSize]
    omega
  cases hf : p.freed with
  | nil =>
      rw [hf, List.length_nil] at hlen
      by_cases hn' : n = 1023
      · simp only [Pool.alloc, hf, if_pos (hfull.mpr hn'), true_iff]
        omega
      · simp only [Pool.alloc, hf, if_neg (hfull.not.mpr hn')]
        constructor
        · intro he
          cases he
        · omega
  | cons a freed =>
      rw [hf, List.length_cons] at hlen
      simp only [Pool.alloc, hf]
      constructor
      · intro he
        cases he
      · omega

theorem free {a : Word} (h : PoolOk p (a :: used)) : PoolOk (p.free a) used := by
  obtain ⟨n, hn, hlt, hperm⟩ := h.carved
  exact ⟨h.even, h.ne_null, h.fits, n, hn, hlt, List.perm_middle.trans hperm⟩

end PoolOk

/-! ## The trees -/

variable {Key Key' : Type}

/-- The two references are different trees of the heap. -/
structure Apart (T : TreeRef Key) (T' : TreeRef Key') : Prop where
  get_set : ∀ h t, T.get (T.set h t) = t
  pool_set : ∀ h t, (T.set h t).pool = h.pool
  get_pool : ∀ h p, T.get { h with pool := p } = T.get h
  other_set : ∀ h t, T'.get (T.set h t) = T'.get h
  other_pool : ∀ h p, T'.get { h with pool := p } = T'.get h

theorem apart_treeSize : Apart treeSize treeStart :=
  ⟨fun _ _ => rfl, fun _ _ => rfl, fun _ _ => rfl, fun _ _ => rfl, fun _ _ => rfl⟩

theorem apart_treeStart : Apart treeStart treeSize :=
  ⟨fun _ _ => rfl, fun _ _ => rfl, fun _ _ => rfl, fun _ _ => rfl, fun _ _ => rfl⟩

/-- One tree holds the keys `ks` at the nodes `locs`. -/
structure Holding [LT Key] (s : Rbt.State Key) (t : RbTree Word Key) (ks : Multiset Key) :
    Prop where
  holds : Rbt.Holds s t
  sorted : Rbt.Sorted t.keys
  keys : (t.keys : Multiset Key) = ks

/-- The trees hold the keys `ks` and `ks'` and share the pool. -/
structure Stores [LT Key] [LT Key'] (T : TreeRef Key) (T' : TreeRef Key') (h : Heap)
    (ks : Multiset Key) (ks' : Multiset Key') : Prop where
  trees : ∃ t t', Holding (T.get h) t ks ∧ Holding (T'.get h) t' ks' ∧
    PoolOk h.pool (t.locs ++ t'.locs)
  outside : h.pool.Outside (T.get h).nil
  outside' : h.pool.Outside (T'.get h).nil

/-- `p` is a node of the tree with the key `k`. -/
def TreeRef.HasNode (T : TreeRef Key) (h : Heap) (p : Word) (k : Key) : Prop :=
  (T.get h).IsNode p ∧ ((T.get h).mem p).key = k

section Ops

variable [LT Key] [LT Key'] {T : TreeRef Key} {T' : TreeRef Key'} {ks : Multiset Key}
  {ks' : Multiset Key'} {h : Heap}

theorem Stores.symm (hs : Stores T T' h ks ks') : Stores T' T h ks' ks := by
  obtain ⟨t, t', ht, ht', hpool⟩ := hs.trees
  exact ⟨⟨t', t, ht', ht, hpool.perm List.perm_append_comm⟩, hs.outside', hs.outside⟩

variable [DecidableLT Key] [Rbt.StrictWeakOrder Key]

omit [DecidableLT Key] [Rbt.StrictWeakOrder Key] in
theorem Holding.length_locs {s : Rbt.State Key} {t : RbTree Word Key} (h : Holding s t ks) :
    t.locs.length = ks.card := by
  rw [← h.keys, Multiset.coe_card]
  simp [RbTree.locs, RbTree.keys]

omit [DecidableLT Key] [Rbt.StrictWeakOrder Key] in
/-- The pool never hands out its last node. -/
theorem Stores.card_le (hs : Stores T T' h ks ks') : ks.card + ks'.card ≤ 1023 := by
  obtain ⟨t, t', ht, ht', hpool⟩ := hs.trees
  obtain ⟨n, -, hn, hperm⟩ := hpool.carved
  have hlen := hperm.length_eq
  simp only [List.length_append, List.length_map, List.length_range, ht.length_locs,
    ht'.length_locs] at hlen
  omega

/-- `insert` adds one key while the pool has a node. -/
theorem insert_room (hT : Apart T T') (val : Key) (hroom : ks.card + ks'.card ≠ 1023) :
    Triple (Stores T T' · ks ks') (T.insert val) (fun _ h => Stores T T' h (val ::ₘ ks) ks')
      (fun _ _ => False) := by
  intro h hs
  obtain ⟨t, t', ht, ht', hpool⟩ := hs.trees
  have hnot : h.pool.alloc ≠ .error .outOfNodes := by
    rw [Ne, hpool.alloc_eq_error_iff, List.length_append, ht.length_locs, ht'.length_locs]
    exact hroom
  obtain ⟨a, p', ha, hal⟩ := hpool.alloc.resolve_right hnot
  have hall : (T.get h).Allocatable a := by
    refine ⟨fun e => ?_, hal.ne_null, hal.even, fun hn => ?_⟩
    · exact hal.inside (e ▸ hs.outside)
    · exact hal.fresh (List.mem_append_left _ (ht.holds.zip.isNode_iff.mp hn))
  obtain ⟨r, t₁, hins, hr, hsorted, hkeys, hperm, hnil⟩ :=
    ht.holds.insert_sorted ht.sorted val hall
  simp only [Ends, TreeRef.insert, ha, hins]
  have hout : ∀ {q}, h.pool.Outside q → p'.Outside q := by
    intro q hq
    rw [Pool.Outside, hal.staticMem]
    exact hq
  refine ⟨⟨t₁, t', ?_, ?_, ?_⟩, ?_, ?_⟩
  · rw [hT.get_set]
    exact ⟨hr, hsorted, by rw [hkeys, ht.keys]⟩
  · rw [hT.other_set, hT.other_pool]
    exact ht'
  · rw [hT.pool_set]
    exact hal.pool.perm (hperm.symm.append_right _)
  · rw [hT.pool_set, hT.get_set, hnil]
    exact hout hs.outside
  · rw [hT.pool_set, hT.other_set, hT.other_pool]
    exact hout hs.outside'

omit [Rbt.StrictWeakOrder Key] in
theorem insert_full (val : Key) (hfull : ks.card + ks'.card = 1023) :
    Triple (Stores T T' · ks ks') (T.insert val) (fun _ _ => False)
      (fun e _ => e = .outOfNodes) := by
  intro h hs
  obtain ⟨t, t', ht, ht', hpool⟩ := hs.trees
  have herr : h.pool.alloc = .error .outOfNodes := by
    rw [hpool.alloc_eq_error_iff, List.length_append, ht.length_locs, ht'.length_locs]
    exact hfull
  simp only [Ends, TreeRef.insert, herr]

/-- `insert` adds one key, unless the pool is used up. -/
theorem insert_triple (hT : Apart T T') (val : Key) :
    Triple (Stores T T' · ks ks') (T.insert val) (fun _ h => Stores T T' h (val ::ₘ ks) ks')
      (fun e _ => e = .outOfNodes) := by
  by_cases hfull : ks.card + ks'.card = 1023
  · exact (insert_full val hfull).weaken (fun _ h => h) (fun _ _ h => h.elim) (fun _ _ h => h)
  · exact (insert_room hT val hfull).weaken (fun _ h => h) (fun _ _ h => h) (fun _ _ h => h.elim)

omit [DecidableLT Key] [Rbt.StrictWeakOrder Key] in
/-- `erase` removes the key of its node and gives a node back. -/
theorem erase_triple (hT : Apart T T') (k : Key) (ptr : Word) :
    Triple (fun h => Stores T T' h (k ::ₘ ks) ks' ∧ T.HasNode h ptr k) (T.erase ptr)
      (fun _ h => Stores T T' h ks ks') (fun _ _ => False) := by
  rintro h ⟨hs, hnode, rfl⟩
  obtain ⟨t, t', ht, ht', hpool⟩ := hs.trees
  obtain ⟨r, freed, t₁, herase, hr, hsorted, hkeys, hperm, hnil⟩ :=
    ht.holds.erase_sorted ht.sorted hnode
  simp only [Ends, TreeRef.erase, herase]
  refine ⟨⟨t₁, t', ?_, ?_, ?_⟩, ?_, ?_⟩
  · rw [hT.get_set]
    refine ⟨hr, hsorted, ?_⟩
    have := hkeys.symm.trans ht.keys
    exact (Multiset.cons_inj_right _).mp this
  · rw [hT.other_set, hT.other_pool]
    exact ht'
  · rw [hT.pool_set]
    exact (hpool.perm (hperm.append_right _)).free
  · rw [hT.pool_set, hT.get_set, hnil]
    exact hs.outside
  · rw [hT.pool_set, hT.other_set, hT.other_pool]
    exact hs.outside'

/-- `find_ge` returns the node of the least key that is not less. -/
theorem findGe_triple (val : Key) :
    Triple (Stores T T' · ks ks') (T.findGe val)
      (fun p h => Stores T T' h ks ks' ∧ ((p = null ∧ ∀ k ∈ ks, k < val) ∨
        (p ≠ null ∧ ∃ k ∈ ks, T.HasNode h p k ∧ ¬ k < val ∧ ∀ k' ∈ ks, ¬ k' < val → ¬ k' < k)))
      (fun _ _ => False) := by
  intro h hs
  obtain ⟨t, t', ht, ht', hpool⟩ := hs.trees
  have hmem : ∀ k, k ∈ t.keys ↔ k ∈ ks := fun k => by rw [← ht.keys, Multiset.mem_coe]
  obtain ⟨p, hp, hcase⟩ := ht.holds.findGe ht.sorted val
  simp only [Ends, TreeRef.findGe, hp]
  refine ⟨hs, ?_⟩
  rcases hcase with ⟨rfl, hall⟩ | ⟨hnode, hkey, hge, hmin⟩
  · exact .inl ⟨rfl, fun k hk => hall k ((hmem k).mpr hk)⟩
  · have hne : p ≠ null := (ht.holds.zip.node_ok (c := []) (ht.holds.zip.isNode_iff.mp hnode)).2.1
    exact .inr ⟨hne, _, (hmem _).mp hkey, ⟨hnode, rfl⟩, hge,
      fun k' hk' => hmin k' ((hmem k').mpr hk')⟩

omit [DecidableLT Key] in
/-- `find_le` returns the node of the greatest key that is not greater. -/
theorem findLe_triple [LE Key] [DecidableLE Key] [Rbt.ConsistentLe Key] (val : Key) :
    Triple (Stores T T' · ks ks') (T.findLe val)
      (fun p h => Stores T T' h ks ks' ∧ ((p = null ∧ ∀ k ∈ ks, ¬ k ≤ val) ∨
        (p ≠ null ∧ ∃ k ∈ ks, T.HasNode h p k ∧ k ≤ val ∧ ∀ k' ∈ ks, k' ≤ val → ¬ k < k')))
      (fun _ _ => False) := by
  intro h hs
  obtain ⟨t, t', ht, ht', hpool⟩ := hs.trees
  have hmem : ∀ k, k ∈ t.keys ↔ k ∈ ks := fun k => by rw [← ht.keys, Multiset.mem_coe]
  obtain ⟨p, hp, hcase⟩ := ht.holds.findLe ht.sorted val
  simp only [Ends, TreeRef.findLe, hp]
  refine ⟨hs, ?_⟩
  rcases hcase with ⟨rfl, hall⟩ | ⟨hnode, hkey, hle, hmax⟩
  · exact .inl ⟨rfl, fun k hk => hall k ((hmem k).mpr hk)⟩
  · have hne : p ≠ null := (ht.holds.zip.node_ok (c := []) (ht.holds.zip.isNode_iff.mp hnode)).2.1
    exact .inr ⟨hne, _, (hmem _).mp hkey, ⟨hnode, rfl⟩, hle,
      fun k' hk' => hmax k' ((hmem k').mpr hk')⟩

end Ops

end Jkos.Kheap
