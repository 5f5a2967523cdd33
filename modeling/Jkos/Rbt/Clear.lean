import Jkos.Rbt.Order

/-!
# Checking and clearing a tree

`check` is the debugging aid of the template, compiled in with `RBT_DEBUG`: it walks the
whole tree and throws at the first node that looks wrong. `clear` frees the nodes of the
tree, children before parents, and begins anew with the sentinel that the tree has.
-/

namespace Jkos.Rbt

open RedBlack

universe u

variable {Key : Type u} {s s' : State Key} {t : RbTree Word Key} {par : Word} {fuel n : Nat}

namespace State

section Check

variable [LT Key] [DecidableLT Key]

/-- The round of the loop of `do_check` for the child `i` of `root`: what `doCheck` returns
for the child, and its size. -/
def checkChild (s : State Key) (doCheck : Word → ExceptT String Option Int) (root : Word)
    (i : Bool) : ExceptT String Option (Int × Int) :=
  let ch := (s.mem root).ch i
  if ch = s.nil then pure (0, 0)
  else do
    let nb ← doCheck ch
    if (i = false ∧ (s.mem root).key < (s.mem ch).key) ∨
        (i = true ∧ (s.mem ch).key < (s.mem root).key) then
      throw "partial order check error"
    else if (s.mem ch).getPar ≠ root then throw "parent pointer check error"
    else pure (nb, (s.mem ch).size)

/-- `do_check`: the number of black nodes on a path, or what is thrown. The bound is on the
recursion depth. -/
def doCheck : Nat → State Key → Word → ExceptT String Option Int
  | 0, _, _ => ExceptT.mk none
  | fuel + 1, s, root =>
    if root = s.nil then pure 0
    else do
      let r₀ ← s.checkChild (doCheck fuel s) root false
      let r₁ ← s.checkChild (doCheck fuel s) root true
      if 1 + r₀.2 + r₁.2 ≠ (s.mem root).size then throw "size check error"
      else if r₀.1 ≠ r₁.1 then throw "black node number check error"
      else pure (r₀.1 + if (s.mem root).isBlack then 1 else 0)

/-- `check`: the lines that it prints, or what it throws. -/
def check (s : State Key) : ExceptT String Option (List String) := do
  let _ ← doCheck loopBound s s.root
  pure ((if (s.mem s.root).isBlack then [] else ["root is not black\n"]) ++
      if (s.mem s.nil).isBlack = false ∨ (s.mem s.nil).size ≠ 0 ∨
          (s.mem s.nil).ch false ≠ s.nil ∨ (s.mem s.nil).ch true ≠ s.nil then
        ["NIL corrupted\n"]
      else [])

end Check

/-- `do_clear`, with the nodes that it passes to `node_free`. -/
def doClear : Nat → State Key → Word → Option (List Word)
  | 0, _, _ => none
  | fuel + 1, s, root =>
    if root = s.nil then some []
    else do
      let l ← doClear fuel s ((s.mem root).ch false)
      let r ← doClear fuel s ((s.mem root).ch true)
      some (l ++ r ++ [root])

/-- `clear`. -/
def clear (s : State Key) : Option (State Key × List Word) :=
  (doClear loopBound s s.root).map fun freed => ({ s with root := s.nil }, freed)

end State

/-! ## Checking -/

section Check

variable [LT Key] [DecidableLT Key]

/-- A subtree in order under its parent passes its round. -/
theorem checkChild_ok {a : Word} {i : Bool} {c : RbTree Word Key}
    {doCheck : Word → ExceptT String Option Int} (hs : Sentinel s)
    (hch : (s.mem a).ch i = ptr s.nil c) (h : Repr s a c) (hn : c = .nil → n = 0)
    (hcheck : doCheck (ptr s.nil c) = pure (n : Int))
    (hlt : ∀ e ∈ c.entries, (i = false → ¬ (s.mem a).key < e.2) ∧
      (i = true → ¬ e.2 < (s.mem a).key)) :
    s.checkChild doCheck a i = pure ((n : Int), (c.count : Int)) := by
  rw [State.checkChild, hch]
  cases c with
  | nil =>
      rw [hn rfl]
      exact if_pos rfl
  | node b black k l r =>
      have hnode := h.1
      have hsize := h.size_ptr hs
      have hord := hlt (b, k) (by simp)
      rw [if_neg (show ptr s.nil (RbTree.node b black k l r) ≠ s.nil from hnode.ne_nil), hcheck,
        pure_bind, hsize]
      rw [ptr, hnode.key, hnode.par, if_neg, if_neg (not_not.mpr rfl)]
      rintro (⟨hi, hk⟩ | ⟨hi, hk⟩)
      · exact hord.1 hi hk
      · exact hord.2 hi hk

theorem doCheck_spec (h : Repr s par t) (hsent : Sentinel s) (hs : Sorted t.keys)
    (hb : t.Balanced n) (hfuel : t.count < fuel) :
    State.doCheck fuel s (ptr s.nil t) = pure (n : Int) := by
  induction fuel generalizing t par n with
  | zero => exact absurd hfuel (Nat.not_lt_zero _)
  | succ fuel ih =>
      cases t with
      | nil =>
          obtain rfl : n = 0 := hb
          exact if_pos rfl
      | node a b k l r =>
          obtain ⟨hn, hl, hr, hrl, hrr⟩ := h
          obtain ⟨hsl, hsr, hlk, hrk⟩ := sorted_node hs
          rw [RbTree.count_node] at hfuel
          obtain ⟨m, hm, hbl, hbr⟩ : ∃ m, n = m + (if b then 1 else 0) ∧ l.Balanced m ∧
              r.Balanced m := by
            cases b with
            | true => exact hb
            | false => exact ⟨n, rfl, hb.2.1, hb.2.2⟩
          have hzero : ∀ {c : RbTree Word Key}, c.Balanced m → c = .nil → m = 0 := by
            rintro c hc rfl
            exact hc
          have hleft := checkChild_ok (i := false) hsent hl hrl (hzero hbl)
            (ih hrl hsl hbl (by omega)) fun e he => ⟨fun _ => hn.key ▸ hlk e he, by simp⟩
          have hright := checkChild_ok (i := true) hsent hr hrr (hzero hbr)
            (ih hrr hsr hbr (by omega)) fun e he => ⟨by simp, fun _ => hn.key ▸ hrk e he⟩
          rw [ptr, State.doCheck, if_neg hn.ne_nil, hleft, pure_bind, hright, pure_bind,
            if_neg (by rw [hn.size]; omega), if_neg (not_not.mpr rfl), hn.black, hm]
          cases b <;> rfl

/-- `check` finds nothing to complain about. -/
theorem Holds.check (h : Holds s t) (hs : Sorted t.keys) : s.check = pure [] := by
  have hroot : s.root = ptr s.nil t := h.zip.ctx
  have hsent := h.zip.sentinel
  obtain ⟨hblack, n, hb⟩ := h.redBlack
  have hrootBlack : (s.mem s.root).isBlack = true := by
    rw [hroot, h.zip.focus.isBlack_ptr hsent]
    exact hblack
  rw [State.check, hrootBlack, hsent.black, hsent.size, hsent.ch, hsent.ch, hroot,
    doCheck_spec h.zip.focus hsent hs hb h.zip.count_lt, pure_bind]
  simp

end Check

/-! ## Clearing -/

theorem doClear_spec (h : Repr s par t) (hfuel : t.count < fuel) :
    ∃ freed, State.doClear fuel s (ptr s.nil t) = some freed ∧ freed.Perm t.locs := by
  induction fuel generalizing t par with
  | zero => exact absurd hfuel (Nat.not_lt_zero _)
  | succ fuel ih =>
      cases t with
      | nil => exact ⟨[], if_pos rfl, .refl _⟩
      | node a b k l r =>
          obtain ⟨hn, hl, hr, hrl, hrr⟩ := h
          rw [RbTree.count_node] at hfuel
          obtain ⟨fl, hfl, hpl⟩ := ih hrl (by omega)
          obtain ⟨fr, hfr, hpr⟩ := ih hrr (by omega)
          refine ⟨fl ++ fr ++ [a], ?_, ?_⟩
          · rw [ptr, State.doClear, if_neg hn.ne_nil, hl, hr, hfl, hfr]
            rfl
          · rw [locs_node, List.append_assoc]
            refine hpl.append (List.Perm.trans ?_ (hpr.cons a))
            exact List.perm_append_singleton a fr

/-- A cleared tree is an empty one. -/
theorem Holds.clear (h : Holds s t) :
    ∃ freed, s.clear = some ({ s with root := s.nil }, freed) ∧ freed.Perm t.locs ∧
      Holds { s with root := s.nil } (.nil : RbTree Word Key) := by
  have hroot : s.root = ptr s.nil t := h.zip.ctx
  obtain ⟨freed, hfreed, hperm⟩ := doClear_spec h.zip.focus h.zip.count_lt
  have hs := h.zip.sentinel
  refine ⟨freed, ?_, hperm, ⟨⟨hs.even, hs.ne_null, hs.black, hs.ch, hs.size⟩, rfl, trivial,
    List.nodup_nil⟩, ⟨rfl, 0, rfl⟩, h.harmless⟩
  rw [State.clear, hroot, hfreed]
  rfl

/-! ## Histories with `clear` -/

section Runs

variable [LT Key] [DecidableLT Key] {ins del : Multiset Key}

/-- States reached by any history, with the keys that were inserted and those that were
erased since the tree was cleared last. -/
inductive ClearRun : State Key → Multiset Key → Multiset Key → Prop
  | new {nil : Word} (hne : nil ≠ null) (heven : IsEven nil) (mem : Word → Node Key) :
      ClearRun (State.new nil mem) 0 0
  | insert {s s' : State Key} {ins del : Multiset Key} {a : Word} {val : Key}
      (h : ClearRun s ins del) (ha : s.Allocatable a) (he : s.insert a val = some s') :
      ClearRun s' (val ::ₘ ins) del
  | erase {s s' : State Key} {ins del : Multiset Key} {p : Word} {freed : Option Word}
      (h : ClearRun s ins del) (hp : s.IsNode p) (he : s.erase p = some (s', freed)) :
      ClearRun s' ins ((s.mem p).key ::ₘ del)
  | clear {s s' : State Key} {ins del : Multiset Key} {freed : List Word}
      (h : ClearRun s ins del) (he : s.clear = some (s', freed)) : ClearRun s' 0 0

variable [StrictWeakOrder Key]

theorem ClearRun.sorted (h : ClearRun s ins del) :
    ∃ t, Holds s t ∧ Sorted t.keys ∧ ins = del + t.keys := by
  induction h with
  | new hne heven mem => exact ⟨.nil, Holds.new hne heven mem, List.Pairwise.nil, rfl⟩
  | insert _ ha he ih =>
      obtain ⟨t, ht, hs, rfl⟩ := ih
      obtain ⟨s₁, t', he', ht', hs', hkeys, -⟩ := ht.insert_sorted hs _ ha
      cases he.symm.trans he'
      exact ⟨t', ht', hs', by rw [hkeys, Multiset.add_cons]⟩
  | erase _ hp he ih =>
      obtain ⟨t, ht, hs, rfl⟩ := ih
      obtain ⟨s₁, freed, t', he', ht', hs', hkeys, -⟩ := ht.erase_sorted hs hp
      cases he.symm.trans he'
      exact ⟨t', ht', hs', by rw [hkeys, Multiset.add_cons, Multiset.cons_add]⟩
  | clear _ he ih =>
      obtain ⟨t, ht, -, -⟩ := ih
      obtain ⟨freed, he', -, ht'⟩ := ht.clear
      cases he.symm.trans he'
      exact ⟨.nil, ht', List.Pairwise.nil, rfl⟩

/-- After every history the debugging check returns without a complaint. -/
theorem run_checkSilent (h : ClearRun s ins del) : s.check = pure [] := by
  obtain ⟨t, ht, hs, -⟩ := h.sorted
  exact ht.check hs

/-- After every history the tree is a red-black tree with the keys inserted and not erased
since it was cleared, and clearing it again frees each of its nodes once. -/
theorem run_clear (h : ClearRun s ins del) : RedBlackState s ∧
    (∃ ks, s.walk = some ks ∧ Sorted ks ∧ ins = del + ks) ∧
    ∃ s' freed, s.clear = some (s', freed) ∧ freed.Nodup ∧ (∀ p, p ∈ freed ↔ s.IsNode p) ∧
      s'.walk = some [] := by
  obtain ⟨t, ht, hs, hkeys⟩ := h.sorted
  obtain ⟨freed, he, hperm, ht'⟩ := ht.clear
  refine ⟨ht.redBlackState, ⟨t.keys, ht.walk, hs, hkeys⟩, _, freed, he, ?_, fun p => ?_, ht'.walk⟩
  · exact hperm.nodup_iff.mpr ht.zip.nodup
  · rw [hperm.mem_iff, ht.zip.isNode_iff]

omit [StrictWeakOrder Key] in
/-- A history without `clear`. -/
theorem ClearRun.of_run (h : Run s ins del) : ClearRun s ins del := by
  induction h with
  | new hne heven mem => exact .new hne heven mem
  | insert _ ha he ih => exact ih.insert ha he
  | erase _ hp he ih => exact ih.erase hp he
  | eraseNull _ he ih =>
      cases he.symm.trans (State.erase_null _)
      exact ih

theorem run_checkSilent_history :
    ∃ s : State Nat, ClearRun s {15, 20, 30, 20, 10} {20} ∧ s.check = pure [] := by
  obtain ⟨s, hrun, -⟩ := exists_run_history
  exact ⟨s, .of_run hrun, run_checkSilent (.of_run hrun)⟩

/-- The four nodes are freed once each, and two inserts follow. -/
theorem run_clear_history : ∃ s s' s'' : State Nat, ∃ freed, ClearRun s {15, 20, 30, 20, 10} {20} ∧
    s.walk = some [10, 15, 20, 30] ∧ s.clear = some (s', freed) ∧ freed.Nodup ∧
    (∀ p, p ∈ freed ↔ s.IsNode p) ∧ ClearRun s'' {4, 8} 0 ∧ RedBlackState s'' := by
  obtain ⟨s, hrun, hnil, -⟩ := exists_run_history
  have hfirst := ClearRun.of_run hrun
  obtain ⟨-, ⟨ks, hwalk, hs, hkeys⟩, s', freed, he, hnd, hmem, -⟩ := run_clear hfirst
  have hks := keys_history hs hkeys
  obtain ⟨t, ht, -⟩ := hfirst.sorted
  obtain ⟨freed', he', -, ht'⟩ := ht.clear
  obtain ⟨rfl, rfl⟩ := Prod.mk.inj (Option.some.inj (he.symm.trans he'))
  have h₀ : ({ s with root := s.nil } : State Nat).NodesAt 8 [] := ⟨hnil, .nil, ht', .refl _⟩
  obtain ⟨ha₁, s₁, he₁, h₁⟩ := h₀.insert 16 8 (by decide) (by decide)
  obtain ⟨ha₂, s₂, he₂, -⟩ := h₁.insert 32 4 (by decide) (by decide)
  have hlast := ((hfirst.clear he).insert ha₁ he₁).insert ha₂ he₂
  exact ⟨s, _, s₂, freed, hfirst, hks ▸ hwalk, he, hnd, hmem, hlast, (run_clear hlast).1⟩

end Runs

end Jkos.Rbt
