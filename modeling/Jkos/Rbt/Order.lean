import Jkos.Rbt.Refine
import Mathlib.Data.List.GetD

/-!
# Order statistics

With `RBT_SIZE` every node counts the nodes of its subtree, and `find_kth` uses the counts
to find the node at a position of the in-order sequence.
-/

namespace Jkos.Rbt

open RedBlack

universe u

variable {Key : Type u} {s : State Key} {t : RbTree Word Key}

/-- The nodes below a pointer in order, with the node itself. -/
inductive State.InOrder (s : State Key) : Word → List Word → Prop
  | nil : s.InOrder s.nil []
  | node {p : Word} {l r : List Word} (hp : p ≠ s.nil) (hl : s.InOrder ((s.mem p).ch false) l)
      (hr : s.InOrder ((s.mem p).ch true) r) : s.InOrder p (l ++ p :: r)

/-- The size fields count nodes: `ps` are the nodes of the tree in order, each of them
once. -/
structure SizesExact (s : State Key) (ps : List Word) : Prop where
  inOrder : s.InOrder s.root ps
  nodup : ps.Nodup
  mem_iff : ∀ p, p ∈ ps ↔ s.IsNode p
  size : ∀ p, s.IsNode p → ∃ qs, s.InOrder p qs ∧ qs.Nodup ∧ (s.mem p).size = qs.length
  sentinel : (s.mem s.nil).size = 0

theorem locs_node (a : Word) (b : Bool) (k : Key) (l r : RbTree Word Key) :
    (RbTree.node a b k l r).locs = l.locs ++ a :: r.locs := by
  simp [RbTree.locs]

theorem length_locs (t : RbTree Word Key) : t.locs.length = t.count := by
  simp [RbTree.locs, RbTree.count]

theorem Repr.inOrder {par : Word} (h : Repr s par t) : s.InOrder (ptr s.nil t) t.locs := by
  induction t generalizing par with
  | nil => exact .nil
  | node a b k l r ihl ihr =>
      obtain ⟨hn, hl, hr, hrl, hrr⟩ := h
      rw [locs_node]
      exact .node hn.ne_nil (hl ▸ ihl hrl) (hr ▸ ihr hrr)

/-- The size field of a node. -/
theorem Repr.size_eq {par q : Word} (h : Repr s par t) (hnodup : t.locs.Nodup)
    (hq : q ∈ t.locs) : ∃ qs, s.InOrder q qs ∧ qs.Nodup ∧ (s.mem q).size = qs.length := by
  induction t generalizing par with
  | nil => simp [RbTree.locs] at hq
  | node a b k l r ihl ihr =>
      have hrepr := h
      obtain ⟨hn, -, -, hrl, hrr⟩ := h
      obtain rfl | hq | hq := (mem_locs_mk (d := false)).mp hq
      · refine ⟨_, hrepr.inOrder, hnodup, ?_⟩
        rw [hn.size, length_locs, RbTree.count_node]
        omega
      · rw [locs_node] at hnodup
        exact ihl hrl hnodup.of_append_left hq
      · rw [locs_node] at hnodup
        exact ihr hrr hnodup.of_append_right.of_cons hq

theorem Holds.sizesExact (h : Holds s t) : SizesExact s t.locs := by
  have hroot : s.root = ptr s.nil t := h.zip.ctx
  refine ⟨hroot ▸ h.zip.focus.inOrder, h.zip.nodup, fun p => h.zip.isNode_iff.symm,
    fun p hp => h.zip.focus.size_eq h.zip.nodup (h.zip.isNode_iff.mp hp), h.zip.sentinel.size⟩

/-- `find_kth` of a position that is not negative. -/
theorem Holds.findKth_eq (h : Holds s t) {k : Int} (hk : 0 ≤ k) :
    s.findKth k = some (t.locs.getD k.toNat null) := by
  have hroot : s.root = ptr s.nil t := h.zip.ctx
  have hs := h.zip.sentinel
  have hsize : (s.mem s.root).size = t.count := hroot ▸ h.zip.focus.size_ptr hs
  rw [State.findKth, hsize]
  by_cases hge : (t.count : Int) ≤ k
  · rw [if_pos hge, List.getD_eq_default]
    rw [length_locs]
    omega
  · have hlt : k.toNat < t.locs.length := by
      rw [length_locs]
      omega
    have hkth := doFindKth_spec (k := k.toNat) h.zip.focus hs (length_locs t ▸ hlt)
      h.zip.count_lt
    rw [Int.toNat_of_nonneg hk, ← hroot, List.getElem?_eq_getElem hlt] at hkth
    rw [if_neg hge, hkth, List.getD_eq_getElem _ _ hlt]

variable [LT Key] [DecidableLT Key] {ins del : Multiset Key}

/-- What was inserted and not erased is in the tree, in whatever order. -/
theorem Run.keys (h : Run s ins del) : ∃ t, Holds s t ∧ ins = del + t.keys := by
  induction h with
  | new hne heven mem => exact ⟨.nil, Holds.new hne heven mem, rfl⟩
  | @insert s s' ins del a val _ ha he ih =>
      obtain ⟨t, ht, rfl⟩ := ih
      obtain ⟨s₁, t', c, he', ht', hplug, -, hent, -⟩ := ht.insert val ha
      cases he.symm.trans he'
      refine ⟨t', ht', ?_⟩
      have hkeys : t.keys = (before c ++ after c).map Prod.snd := by
        rw [RbTree.keys, hplug, entries_plug]
        simp
      have hkeys' : t'.keys = (before c).map Prod.snd ++ val :: (after c).map Prod.snd := by
        rw [RbTree.keys, hent, List.map_append, List.map_cons]
      rw [hkeys, hkeys', List.map_append, ← Multiset.add_cons]
      exact congrArg (del + ·) (Multiset.coe_eq_coe.mpr List.perm_middle).symm
  | @erase s s' ins del p freed _ hp he ih =>
      obtain ⟨t, ht, rfl⟩ := ih
      obtain ⟨s₁, freed', t', pre, post, k, he', ht', hent, hkeys, -, hkey, -⟩ := ht.erase hp
      cases he.symm.trans he'
      refine ⟨t', ht', ?_⟩
      have hold : t.keys = pre.map Prod.snd ++ k :: post.map Prod.snd := by
        rw [RbTree.keys, hent, List.map_append, List.map_cons]
      rw [hold, hkeys, List.map_append, hkey, Multiset.cons_add, ← Multiset.add_cons]
      exact congrArg (del + ·) (Multiset.coe_eq_coe.mpr List.perm_middle)
  | eraseNull _ he ih =>
      cases he.symm.trans (State.erase_null _)
      exact ih

/-- After every history the sizes are exact, and `find_kth` returns the node at its position
of the in-order sequence, or `null` from the number of stored keys on. -/
theorem run_orderStatistics (h : Run s ins del) :
    ∃ ps, SizesExact s ps ∧ ps.length + del.card = ins.card ∧
      (∀ k : Int, 0 ≤ k → ∃ p, s.findKth k = some p ∧ (p = null ↔ ps.length ≤ k)) ∧
      ∀ (k : Nat) (hk : k < ps.length), s.findKth k = some ps[k] := by
  obtain ⟨t, ht, rfl⟩ := h.keys
  have hlen : t.locs.length = t.keys.length := by simp [RbTree.locs, RbTree.keys]
  refine ⟨t.locs, ht.sizesExact, ?_, fun k hk => ⟨_, ht.findKth_eq hk, ?_⟩, fun k hk => ?_⟩
  · rw [Multiset.card_add, Multiset.coe_card, hlen, Nat.add_comm]
  · by_cases hlt : k.toNat < t.locs.length
    · have hnode := ht.zip.isNode_iff.mpr (List.getElem_mem hlt)
      rw [List.getD_eq_getElem _ _ hlt]
      exact iff_of_false (h.isNode_ne_null hnode) (by omega)
    · rw [List.getD_eq_default _ _ (by omega)]
      exact iff_of_true rfl (by omega)
  · rw [ht.findKth_eq (by omega), Int.toNat_natCast, List.getD_eq_getElem _ _ hk]

theorem run_orderStatistics_history :
    ∃ s : State Nat, Run s {15, 20, 30, 20, 10} {20} ∧ ∃ ps, SizesExact s ps ∧ ps.length = 4 ∧
      s.findKth 4 = some null ∧ ∀ (k : Nat) (hk : k < ps.length), s.findKth k = some ps[k] := by
  obtain ⟨s, hrun, -⟩ := exists_run_history
  obtain ⟨ps, hsizes, hlen, hnull, hall⟩ := run_orderStatistics hrun
  have hfour : ps.length = 4 := Nat.add_right_cancel hlen
  obtain ⟨p, hp, hiff⟩ := hnull 4 (by decide)
  have hlast : p = null := hiff.mpr (by omega)
  exact ⟨s, hrun, ps, hsizes, hfour, hlast ▸ hp, hall⟩

end Jkos.Rbt
