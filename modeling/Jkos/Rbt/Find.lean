import Jkos.Rbt.Erase

/-!
# Searching and walking

The search loops return the first (`find_ge`) or last (`find_le`) entry of the
in-order sequence that satisfies the comparison; for this the sequence has to be
sorted, because a search only ever looks at one path.
-/

namespace Jkos.Rbt

open RedBlack

universe u

/-- The order that `Key_t::operator <` is required to be. -/
class StrictWeakOrder (Key : Type u) [LT Key] : Prop where
  irrefl : ∀ a : Key, ¬ a < a
  trans : ∀ a b c : Key, a < b → b < c → a < c
  negTrans : ∀ a b c : Key, ¬ a < b → ¬ b < c → ¬ a < c

/-- `operator <=`, where a key type has one, agrees with `operator <`. -/
class ConsistentLe (Key : Type u) [LT Key] [LE Key] : Prop where
  le_iff : ∀ a b : Key, a ≤ b ↔ ¬ b < a

instance {Key : Type u} [LinearOrder Key] : StrictWeakOrder Key where
  irrefl := lt_irrefl
  trans _ _ _ := lt_trans
  negTrans _ _ _ hab hbc := not_lt.mpr ((not_lt.mp hbc).trans (not_lt.mp hab))

instance {Key : Type u} [LinearOrder Key] : ConsistentLe Key where
  le_iff _ _ := not_lt.symm

variable {Key : Type u} {s s' : State Key} {c : Ctx Word Key} {t : RbTree Word Key}

/-- No key is greater than a later one. -/
def Sorted [LT Key] (ks : List Key) : Prop := ks.Pairwise (fun a b => ¬ b < a)

/-! ## Order facts -/

section Order

variable [LT Key]

theorem sorted_node {a : Word} {b : Bool} {k : Key} {l r : RbTree Word Key}
    (h : Sorted (RbTree.node a b k l r).keys) :
    Sorted l.keys ∧ Sorted r.keys ∧ (∀ e ∈ l.entries, ¬ k < e.2) ∧ ∀ e ∈ r.entries, ¬ e.2 < k := by
  simp only [Sorted, RbTree.keys, RbTree.entries_node, List.map_append, List.map_cons,
    List.pairwise_append, List.pairwise_cons, List.mem_cons] at h
  obtain ⟨hl, ⟨hkr, hr⟩, hlr⟩ := h
  refine ⟨hl, hr, fun e he => ?_, fun e he => ?_⟩
  · exact hlr e.2 (List.mem_map_of_mem he) k (.inl rfl)
  · exact hkr e.2 (List.mem_map_of_mem he)

variable [StrictWeakOrder Key]

theorem lt_of_not_lt_of_lt {a b c : Key} (h : ¬ b < a) (h' : b < c) : a < c := by
  by_contra hac
  exact StrictWeakOrder.negTrans b a c h hac h'

theorem lt_of_lt_of_not_lt {a b c : Key} (h : a < b) (h' : ¬ c < b) : a < c := by
  by_contra hac
  exact StrictWeakOrder.negTrans a c b hac h' h

/-- Inserting at the hole of a path that follows `<` keeps a sequence sorted. -/
theorem Directed.sorted [DecidableLT Key] {val : Key} (h : Directed val c)
    (hs : Sorted ((before c ++ after c).map Prod.snd)) :
    (∀ e ∈ before c, ¬ val < e.2) ∧ ∀ e ∈ after c, ¬ e.2 < val := by
  induction c with
  | nil => simp [before, after]
  | cons f c ih =>
      have hdir := h f (by simp)
      have hc : Directed val c := fun g hg => h g (by simp [hg])
      have hsub : Sorted ((before c ++ after c).map Prod.snd) := by
        refine hs.sublist (List.Sublist.map _ ?_)
        exact List.Sublist.append (by simp [before]) (by simp [after])
      obtain ⟨hb, ha⟩ := ih hc hsub
      cases hd : f.dir with
      | true =>
          have hlt : f.key < val := by simpa [hd] using hdir.symm
          have hsib : ∀ e ∈ f.sib.entries, ¬ f.key < e.2 := by
            intro e he
            simp only [before, after, hd, if_true, Sorted, List.map_append, List.map_cons,
              List.map_nil, List.pairwise_append, List.nil_append] at hs
            exact hs.1.2.1.2.2 e.2 (List.mem_map_of_mem he) f.key (by simp)
          refine ⟨fun e he => ?_, fun e he => ?_⟩
          · simp only [before, hd, if_true, List.mem_append, List.mem_singleton] at he
            rcases he with he | he | rfl
            · exact hb e he
            · intro hve
              exact hsib e he (StrictWeakOrder.trans _ _ _ hlt hve)
            · intro hve
              exact StrictWeakOrder.irrefl _ (StrictWeakOrder.trans _ _ _ hlt hve)
          · simp only [after, hd, if_true, List.nil_append] at he
            exact ha e he
      | false =>
          have hge : ¬ f.key < val := by simpa [hd] using hdir.symm
          have hsib : ∀ e ∈ f.sib.entries, ¬ e.2 < f.key := by
            intro e he
            simp only [before, after, hd, Bool.false_eq_true, if_false, Sorted, List.map_append,
              List.map_cons, List.append_nil, List.cons_append, List.pairwise_append,
              List.pairwise_cons] at hs
            exact hs.2.1.1 e.2 (by simp [List.mem_map_of_mem he])
          refine ⟨fun e he => ?_, fun e he => ?_⟩
          · simp only [before, hd, Bool.false_eq_true, if_false, List.append_nil] at he
            exact hb e he
          · simp only [after, hd, Bool.false_eq_true, if_false, List.cons_append,
              List.mem_cons, List.mem_append] at he
            rcases he with rfl | he | he
            · exact hge
            · exact StrictWeakOrder.negTrans _ _ _ (hsib e he) hge
            · exact ha e he

end Order

/-! ## The search loops -/

theorem doFindGe_spec [LT Key] [DecidableLT Key] [StrictWeakOrder Key] (val : Key) {fuel : Nat}
    {par : Word} (pos : Word) (h : Repr s par t) (hs : Sorted t.keys) (hfuel : t.count < fuel) :
    State.doFindGe val fuel s (ptr s.nil t) pos =
      some (((t.entries.find? (fun e => ¬ e.2 < val)).map Prod.fst).getD pos) := by
  induction fuel generalizing t par pos with
  | zero => omega
  | succ fuel ih =>
      cases t with
      | nil => simp [State.doFindGe]
      | node a b k l r =>
          obtain ⟨hn, hl, hr, hrl, hrr⟩ := h
          obtain ⟨hsl, hsr, hlk, -⟩ := sorted_node hs
          rw [RbTree.count_node] at hfuel
          rw [ptr, State.doFindGe, if_neg hn.ne_nil, hn.key, hl, hr, RbTree.entries_node,
            List.find?_append]
          by_cases hk : k < val
          · -- everything in the left subtree and the node itself are less than `val`
            have hnone : l.entries.find? (fun e => decide ¬ e.2 < val) = none := by
              rw [List.find?_eq_none]
              intro e he
              simpa using lt_of_not_lt_of_lt (hlk e he) hk
            rw [if_pos hk, ih _ hrr hsr (by omega), hnone]
            simp [hk]
          · rw [if_neg hk, ih _ hrl hsl (by omega)]
            cases l.entries.find? (fun e => decide ¬ e.2 < val) with
            | none => simp [hk]
            | some e => simp

theorem doFindLe_spec [LT Key] [LE Key] [DecidableLE Key] [StrictWeakOrder Key]
    [ConsistentLe Key] (val : Key) {fuel : Nat} {par : Word} (pos : Word) (h : Repr s par t)
    (hs : Sorted t.keys) (hfuel : t.count < fuel) :
    State.doFindLe val fuel s (ptr s.nil t) pos =
      some (((t.entries.reverse.find? (fun e => e.2 ≤ val)).map Prod.fst).getD pos) := by
  induction fuel generalizing t par pos with
  | zero => omega
  | succ fuel ih =>
      cases t with
      | nil => simp [State.doFindLe]
      | node a b k l r =>
          obtain ⟨hn, hl, hr, hrl, hrr⟩ := h
          obtain ⟨hsl, hsr, -, hrk⟩ := sorted_node hs
          rw [RbTree.count_node] at hfuel
          rw [ptr, State.doFindLe, if_neg hn.ne_nil, hn.key, hl, hr, RbTree.entries_node,
            List.reverse_append, List.reverse_cons, List.append_assoc, List.find?_append]
          by_cases hk : k ≤ val
          · rw [if_pos hk, ih _ hrr hsr (by omega)]
            cases r.entries.reverse.find? (fun e => decide (e.2 ≤ val)) with
            | none => simp [hk]
            | some e => simp
          · -- everything in the right subtree and the node itself are greater than `val`
            have hlt : val < k := by
              by_contra hlt
              exact hk ((ConsistentLe.le_iff k val).mpr hlt)
            have hnone : r.entries.reverse.find? (fun e => decide (e.2 ≤ val)) = none := by
              rw [List.find?_eq_none]
              intro e he
              have hge := lt_of_lt_of_not_lt hlt (hrk e (by simpa using he))
              simpa [ConsistentLe.le_iff] using hge
            rw [if_neg hk, ih _ hrl hsl (by omega), hnone]
            simp [hk]

theorem doFindKth_spec {fuel : Nat} {par : Word} {k : Nat} (h : Repr s par t) (hsent : Sentinel s)
    (hk : k < t.count) (hfuel : t.count < fuel) :
    State.doFindKth fuel s (ptr s.nil t) k = t.locs[k]? := by
  induction fuel generalizing t par k with
  | zero => omega
  | succ fuel ih =>
      cases t with
      | nil => simp at hk
      | node a b key l r =>
          obtain ⟨hn, hl, hr, hrl, hrr⟩ := h
          have hsize := hrl.size_ptr hsent
          have hlocs : (RbTree.node a b key l r).locs = l.locs ++ a :: r.locs := by
            simp [RbTree.locs]
          have hlen : l.locs.length = l.count := by simp [RbTree.locs, RbTree.count]
          rw [RbTree.count_node] at hfuel hk
          rw [ptr, State.doFindKth, hl, hr, hsize, hlocs]
          by_cases hge : l.count ≤ k
          · rw [if_pos (by omega)]
            by_cases heq : k = l.count
            · rw [if_pos (by omega), heq, List.getElem?_append_right (by omega)]
              simp [hlen]
            · have hsub : (k : Int) - (l.count + 1) = ((k - l.count - 1 : Nat) : Int) := by omega
              rw [if_neg (by omega), hsub, ih hrr (by omega) (by omega),
                List.getElem?_append_right (by omega), hlen,
                show k - l.count = (k - l.count - 1) + 1 by omega, List.getElem?_cons_succ]
              rfl
          · rw [if_neg (by omega), ih hrl (by omega) (by omega),
              List.getElem?_append_left (by omega)]

/-- A negative position is to the left of every node: the search stays at the sentinel. -/
theorem doFindKth_neg {fuel : Nat} {par : Word} {k : Int} (h : Repr s par t) (hsent : Sentinel s)
    (hk : k < 0) : State.doFindKth fuel s (ptr s.nil t) k = none := by
  induction fuel generalizing t par with
  | zero => rfl
  | succ fuel ih =>
      cases t with
      | nil =>
          have hsize := hsent.size
          rw [ptr, State.doFindKth, hsent.ch, hsize, if_neg (by omega)]
          exact ih (t := .nil) h
      | node a b key l r =>
          obtain ⟨-, hl, -, hrl, -⟩ := h
          have hsize := hrl.size_ptr hsent
          rw [ptr, State.doFindKth, hl, hsize, if_neg (by omega)]
          exact ih hrl

theorem doWalk_spec {fuel : Nat} {par : Word} (h : Repr s par t) (hfuel : t.count < fuel) :
    State.doWalk fuel s (ptr s.nil t) = some t.keys := by
  induction fuel generalizing t par with
  | zero => omega
  | succ fuel ih =>
      cases t with
      | nil => simp [State.doWalk, RbTree.keys]
      | node a b k l r =>
          obtain ⟨hn, hl, hr, hrl, hrr⟩ := h
          rw [RbTree.count_node] at hfuel
          rw [ptr, State.doWalk, if_neg hn.ne_nil, hl, hr, ih hrl (by omega), ih hrr (by omega)]
          simp [RbTree.keys, hn.key]

end Jkos.Rbt
