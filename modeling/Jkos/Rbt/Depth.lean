import Jkos.Lib.RedBlackDepth
import Jkos.Rbt.Order

/-!
# The cost of a search

Every loop that goes down the tree ends after as many steps as the tree is deep, so the
red-black invariant bounds it by the logarithm of the number of keys. The bound does not
depend on the keys, nor on what is looked for.
-/

namespace Jkos.Rbt

open RedBlack

universe u

variable {Key : Type u} {s : State Key} {t : RbTree Word Key} {ins del : Multiset Key}
  {par pos : Word} {fuel fuel' : Nat}

theorem depth_children {a : Word} {b : Bool} {k : Key} {l r : RbTree Word Key} {n : Nat}
    (h : (RbTree.node a b k l r).depth < n + 1) : l.depth < n ∧ r.depth < n := by
  rw [RbTree.depth] at h
  omega

/-- More iterations than the tree is deep make no difference to `find_ge`. -/
theorem Repr.doFindGe_fuel [LT Key] [DecidableLT Key] (h : Repr s par t) (val : Key)
    (hf : t.depth < fuel) (hf' : t.depth < fuel') :
    State.doFindGe val fuel s (ptr s.nil t) pos = State.doFindGe val fuel' s (ptr s.nil t) pos := by
  induction t generalizing par pos fuel fuel' with
  | nil =>
      obtain ⟨n, rfl⟩ := Nat.exists_eq_add_one_of_ne_zero (Nat.ne_of_gt hf)
      obtain ⟨n', rfl⟩ := Nat.exists_eq_add_one_of_ne_zero (Nat.ne_of_gt hf')
      rw [ptr, State.doFindGe, State.doFindGe, if_pos rfl, if_pos rfl]
  | node a b k l r ihl ihr =>
      obtain ⟨n, rfl⟩ := Nat.exists_eq_add_one_of_ne_zero (Nat.ne_zero_of_lt hf)
      obtain ⟨n', rfl⟩ := Nat.exists_eq_add_one_of_ne_zero (Nat.ne_zero_of_lt hf')
      obtain ⟨hn, hl, hr, hrl, hrr⟩ := h
      obtain ⟨hfl, hfr⟩ := depth_children hf
      obtain ⟨hfl', hfr'⟩ := depth_children hf'
      rw [ptr, State.doFindGe, State.doFindGe, if_neg hn.ne_nil, if_neg hn.ne_nil, hl, hr,
        ihl hrl hfl hfl', ihr hrr hfr hfr']

/-- The same for `find_le`. -/
theorem Repr.doFindLe_fuel [LE Key] [DecidableLE Key] (h : Repr s par t) (val : Key)
    (hf : t.depth < fuel) (hf' : t.depth < fuel') :
    State.doFindLe val fuel s (ptr s.nil t) pos = State.doFindLe val fuel' s (ptr s.nil t) pos := by
  induction t generalizing par pos fuel fuel' with
  | nil =>
      obtain ⟨n, rfl⟩ := Nat.exists_eq_add_one_of_ne_zero (Nat.ne_of_gt hf)
      obtain ⟨n', rfl⟩ := Nat.exists_eq_add_one_of_ne_zero (Nat.ne_of_gt hf')
      rw [ptr, State.doFindLe, State.doFindLe, if_pos rfl, if_pos rfl]
  | node a b k l r ihl ihr =>
      obtain ⟨n, rfl⟩ := Nat.exists_eq_add_one_of_ne_zero (Nat.ne_zero_of_lt hf)
      obtain ⟨n', rfl⟩ := Nat.exists_eq_add_one_of_ne_zero (Nat.ne_zero_of_lt hf')
      obtain ⟨hn, hl, hr, hrl, hrr⟩ := h
      obtain ⟨hfl, hfr⟩ := depth_children hf
      obtain ⟨hfl', hfr'⟩ := depth_children hf'
      rw [ptr, State.doFindLe, State.doFindLe, if_neg hn.ne_nil, if_neg hn.ne_nil, hl, hr,
        ihl hrl hfl hfl', ihr hrr hfr hfr']

/-- A position within the tree is found before the search leaves it. -/
theorem Repr.doFindKth_fuel (h : Repr s par t) (hs : Sentinel s) {k : Int} (h0 : 0 ≤ k)
    (hk : k < t.count) (hf : t.depth < fuel) (hf' : t.depth < fuel') :
    State.doFindKth fuel s (ptr s.nil t) k = State.doFindKth fuel' s (ptr s.nil t) k := by
  induction t generalizing par k fuel fuel' with
  | nil =>
      rw [RbTree.count_nil] at hk
      omega
  | node a b key l r ihl ihr =>
      obtain ⟨n, rfl⟩ := Nat.exists_eq_add_one_of_ne_zero (Nat.ne_zero_of_lt hf)
      obtain ⟨n', rfl⟩ := Nat.exists_eq_add_one_of_ne_zero (Nat.ne_zero_of_lt hf')
      obtain ⟨hn, hl, hr, hrl, hrr⟩ := h
      obtain ⟨hfl, hfr⟩ := depth_children hf
      obtain ⟨hfl', hfr'⟩ := depth_children hf'
      rw [RbTree.count_node] at hk
      rw [ptr, State.doFindKth, State.doFindKth, hl, hr, hrl.size_ptr hs]
      split
      · split
        · rfl
        · exact ihr hrr (by omega) (by omega) hfr hfr'
      · exact ihl hrl h0 (by omega) hfl hfl'

/-- The descent of `insert` counts the new node on its way, which changes no link below. -/
theorem Repr.descend_fuel [LT Key] [DecidableLT Key] (h : Repr s par t) (hnd : t.locs.Nodup)
    (val : Key) {last : Word} (hf : t.depth < fuel) (hf' : t.depth < fuel') :
    State.descend val fuel s last (ptr s.nil t) = State.descend val fuel' s last (ptr s.nil t) := by
  induction t generalizing s par last fuel fuel' with
  | nil =>
      obtain ⟨n, rfl⟩ := Nat.exists_eq_add_one_of_ne_zero (Nat.ne_of_gt hf)
      obtain ⟨n', rfl⟩ := Nat.exists_eq_add_one_of_ne_zero (Nat.ne_of_gt hf')
      rw [ptr, State.descend, State.descend, if_pos rfl, if_pos rfl]
  | node a b k l r ihl ihr =>
      obtain ⟨n, rfl⟩ := Nat.exists_eq_add_one_of_ne_zero (Nat.ne_zero_of_lt hf)
      obtain ⟨n', rfl⟩ := Nat.exists_eq_add_one_of_ne_zero (Nat.ne_zero_of_lt hf')
      obtain ⟨hn, hl, hr, hrl, hrr⟩ := h
      obtain ⟨hfl, hfr⟩ := depth_children hf
      obtain ⟨hfl', hfr'⟩ := depth_children hf'
      rw [locs_node, List.nodup_append, List.nodup_cons] at hnd
      obtain ⟨hndl, ⟨har, hndr⟩, hdisj⟩ := hnd
      set s₁ := s.modify a (fun x => x.setSize (x.size + 1)) with hs₁
      have hother : ∀ q, q ≠ a → s₁.mem q = s.mem q := fun q hq => if_neg hq
      have hself : s₁.mem a = (s.mem a).setSize ((s.mem a).size + 1) := if_pos rfl
      have hch : ∀ i, (s₁.mem a).ch i = (s.mem a).ch i := fun i => by rw [hself, Node.ch_setSize]
      have hrl' : Repr s₁ a l := hrl.congr rfl fun q hq => hother q fun e =>
        hdisj q hq a List.mem_cons_self e
      have hrr' : Repr s₁ a r := hrr.congr rfl fun q hq => hother q fun e => har (e ▸ hq)
      rw [ptr, State.descend, State.descend, if_neg hn.ne_nil, if_neg hn.ne_nil]
      simp only [← hs₁, hch]
      cases decide ((s₁.mem a).key < val) with
      | false =>
          rw [hl]
          exact ihl hrl' hndl hfl hfl'
      | true =>
          rw [hr]
          exact ihr hrr' hndr hfr hfr'

variable [LT Key] [DecidableLT Key]

/-- The loops that go down the tree of `s` end after at most `bound` steps, with the results
that `find_ge`, `find_le`, `find_kth` and `insert` use. -/
structure EndsWithin [LE Key] [DecidableLE Key] (s : State Key) (bound : Nat) : Prop where
  findGe : ∀ val, ∃ pos, State.doFindGe val (bound + 1) s s.root s.nil = some pos ∧
    State.doFindGe val loopBound s s.root s.nil = some pos
  findLe : ∀ val, ∃ pos, State.doFindLe val (bound + 1) s s.root s.nil = some pos ∧
    State.doFindLe val loopBound s s.root s.nil = some pos
  findKth : ∀ k : Int, 0 ≤ k → k < (s.mem s.root).size → ∃ p,
    State.doFindKth (bound + 1) s s.root k = some p ∧
      State.doFindKth loopBound s s.root k = some p
  descend : ∀ val, ∃ r, State.descend val (bound + 1) s s.nil s.root = some r ∧
    State.descend val loopBound s s.nil s.root = some r

variable [StrictWeakOrder Key] [LE Key] [DecidableLE Key] [ConsistentLe Key]

theorem Holds.endsWithin (h : Holds s t) (hs : Sorted t.keys) {bound : Nat}
    (hbound : t.depth ≤ bound) : EndsWithin s bound := by
  have hroot : s.root = ptr s.nil t := h.zip.ctx
  have hfuel : t.depth < bound + 1 := Nat.lt_succ_of_le hbound
  have hloop : t.depth < loopBound := t.depth_le_count.trans_lt h.zip.count_lt
  have hrepr := h.zip.focus
  have hnd : t.locs.Nodup := h.zip.nodup
  refine ⟨fun val => ?_, fun val => ?_, fun k h0 hk => ?_, fun val => ?_⟩
  · rw [hroot, hrepr.doFindGe_fuel val hfuel hloop]
    exact ⟨_, doFindGe_spec val s.nil hrepr hs h.zip.count_lt,
      doFindGe_spec val s.nil hrepr hs h.zip.count_lt⟩
  · rw [hroot, hrepr.doFindLe_fuel val hfuel hloop]
    exact ⟨_, doFindLe_spec val s.nil hrepr hs h.zip.count_lt,
      doFindLe_spec val s.nil hrepr hs h.zip.count_lt⟩
  · rw [hroot, hrepr.size_ptr h.zip.sentinel] at hk
    have hkth := doFindKth_spec (k := k.toNat) hrepr h.zip.sentinel (by omega) h.zip.count_lt
    rw [Int.toNat_of_nonneg h0, List.getElem?_eq_getElem (by rw [length_locs]; omega)] at hkth
    rw [hroot, hrepr.doFindKth_fuel h.zip.sentinel h0 hk hfuel hloop]
    exact ⟨_, hkth, hkth⟩
  · have hgrown : Grown s [] t :=
      ⟨h.zip.sentinel, h.zip.ctx, h.zip.focus, h.zip.nodup⟩
    obtain ⟨s', c', he, -⟩ := descend_spec val hgrown (by simp [Directed]) h.zip.count_lt
    rw [hroot, hrepr.descend_fuel hnd val hfuel hloop]
    exact ⟨_, he, he⟩

/-- After every history a search among `n` keys takes at most `2 * log₂ (n + 1)` steps. -/
theorem run_logarithmic (h : Run s ins del) :
    EndsWithin s (2 * Nat.log 2 (ins.card - del.card + 1)) := by
  obtain ⟨t, ht, hs, rfl⟩ := h.sorted
  refine ht.endsWithin hs ?_
  have hcard : (del + (t.keys : Multiset Key)).card - del.card = t.count := by
    rw [Multiset.card_add, Multiset.coe_card, RbTree.keys, List.length_map, Nat.add_sub_cancel_left]
    rfl
  rw [hcard]
  exact ht.redBlack.depth_le

theorem run_logarithmic_history :
    ∃ s : State Nat, Run s {15, 20, 30, 20, 10} {20} ∧ EndsWithin s (2 * Nat.log 2 (5 - 1 + 1)) := by
  obtain ⟨s, hrun, -⟩ := exists_run_history
  exact ⟨s, hrun, run_logarithmic hrun⟩

end Jkos.Rbt
