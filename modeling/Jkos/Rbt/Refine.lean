import Jkos.Rbt.Find
import Mathlib.Order.Lattice

/-!
# Operation histories

`Run s inserted erased` says that some history of `insert` and `erase` calls on an
empty tree leads to the state `s`, after inserting and erasing the given keys. The
representation invariant holds in every such state for every comparison, lawful
or not; with a strict weak order the tree refines a sorted multiset.
-/

namespace Jkos.Rbt

open RedBlack

universe u

variable {Key : Type u} {s s' : State Key} {t : RbTree Word Key}

/-! ## Nodes seen through pointers -/

/-- The addresses reachable from `tree_root`. -/
inductive State.IsNode (s : State Key) : Word → Prop
  | root (h : s.root ≠ s.nil) : s.IsNode s.root
  | child {p : Word} (hp : s.IsNode p) (i : Bool) (h : (s.mem p).ch i ≠ s.nil) :
      s.IsNode ((s.mem p).ch i)

/-- A path from `p` down to the sentinel that meets `n` black nodes. -/
inductive State.BlackPath (s : State Key) : Word → Nat → Prop
  | nil : s.BlackPath s.nil 0
  | node {p : Word} {n : Nat} (i : Bool) (hp : p ≠ s.nil) (h : s.BlackPath ((s.mem p).ch i) n) :
      s.BlackPath p (n + if (s.mem p).isBlack then 1 else 0)

/-- What `node_alloc` promises: an aligned address that is not a node of the tree. -/
structure State.Allocatable (s : State Key) (a : Word) : Prop where
  ne_nil : a ≠ s.nil
  ne_null : a ≠ null
  even : IsEven a
  fresh : ¬ s.IsNode a

/-- A recorded event that does not involve the sentinel. -/
def Event.Harmless (nil : Word) : Event → Prop
  | .rotate root pivot => root ≠ nil ∧ pivot ≠ nil
  | .sibling q => q ≠ nil

theorem Repr.isNode {par : Word} (h : Repr s par t) (hroot : t ≠ .nil → s.IsNode (ptr s.nil t))
    {q : Word} (hq : q ∈ t.locs) : s.IsNode q := by
  induction t generalizing par with
  | nil => simp [RbTree.locs] at hq
  | node a b k l r ihl ihr =>
      obtain ⟨-, hl, hr, hrl, hrr⟩ := h
      have ha : s.IsNode a := hroot (by simp)
      rcases (mem_locs_mk (d := false)).mp hq with rfl | hq | hq
      · exact ha
      · refine ihl hrl (fun hne => ?_) hq
        have hch : (s.mem a).ch false ≠ s.nil := by
          rw [hl]
          exact fun e => hne (hrl.ptr_eq_nil_iff.mp e)
        exact hl ▸ State.IsNode.child ha false hch
      · refine ihr hrr (fun hne => ?_) hq
        have hch : (s.mem a).ch true ≠ s.nil := by
          rw [hr]
          exact fun e => hne (hrr.ptr_eq_nil_iff.mp e)
        exact hr ▸ State.IsNode.child ha true hch

theorem Repr.ptr_mem (h : t ≠ .nil) (nil : Word) : ptr nil t ∈ t.locs := by
  cases t with
  | nil => exact absurd rfl h
  | node a b k l r => simp [ptr, RbTree.locs]

/-- The nodes of the state are the locations of the tree it represents. -/
theorem Zip.isNode_iff (h : Zip s [] t) {q : Word} : s.IsNode q ↔ q ∈ t.locs := by
  have hroot : s.root = ptr s.nil t := h.ctx
  constructor
  · intro hq
    induction hq with
    | root hne =>
        rw [hroot] at hne ⊢
        exact Repr.ptr_mem (fun e => hne (h.focus.ptr_eq_nil_iff.mpr e)) s.nil
    | @child p hp i hch ih =>
        obtain ⟨c, b, k, l, r, rfl⟩ := exists_ctx_of_mem ih
        obtain ⟨-, hl, hr, hrl, hrr⟩ := h.unplug.focus
        refine mem_locs_plug.mpr (.inr ((mem_locs_mk (d := false)).mpr (.inr ?_)))
        cases i with
        | false =>
            rw [hl] at hch ⊢
            exact .inl (Repr.ptr_mem (fun e => hch (hrl.ptr_eq_nil_iff.mpr e)) s.nil)
        | true =>
            rw [hr] at hch ⊢
            exact .inr (Repr.ptr_mem (fun e => hch (hrr.ptr_eq_nil_iff.mpr e)) s.nil)
  · intro hq
    refine h.focus.isNode (fun hne => ?_) hq
    rw [← hroot]
    refine State.IsNode.root ?_
    rw [hroot]
    exact fun e => hne (h.focus.ptr_eq_nil_iff.mp e)

theorem Zip.freshFor (h : Zip s [] t) {a : Word} (ha : s.Allocatable a) : FreshFor s t a :=
  ⟨ha.ne_nil, ha.ne_null, ha.even, fun hmem => ha.fresh (h.isNode_iff.mpr hmem)⟩

theorem TraceOk.harmless (h : TraceOk s s') (hnil : s'.nil = s.nil)
    (hs : ∀ e ∈ s.trace, e.Harmless s.nil) : ∀ e ∈ s'.trace, e.Harmless s'.nil := by
  intro e he
  rw [hnil]
  rcases h e he with he | he
  · exact hs e he
  · cases e <;> exact he

/-! ## What every operation keeps -/

/-- The state holds the red-black tree `t`, and its history met no sentinel. -/
structure Holds (s : State Key) (t : RbTree Word Key) : Prop where
  zip : Zip s [] t
  redBlack : IsRedBlack t
  harmless : ∀ e ∈ s.trace, e.Harmless s.nil

/-- A state holds one tree. -/
theorem Holds.unique {s : State Key} {t t' : RbTree Word Key} (h : Holds s t) (h' : Holds s t') :
    t = t' :=
  h.zip.focus.unique h'.zip.focus (h.zip.ctx.symm.trans h'.zip.ctx)

theorem Holds.new {nil : Word} (hne : nil ≠ null) (heven : IsEven nil) (mem : Word → Node Key) :
    Holds (State.new nil mem) .nil := by
  refine ⟨⟨⟨heven, hne, ?_, ?_, ?_⟩, rfl, trivial, by simp [RbTree.locs]⟩, ⟨rfl, 0, rfl⟩, ?_⟩
  · simp [State.new, Node.isBlack_setPar _ heven]
  · intro i
    cases i <;> simp [State.new, Node.setCh]
  · simp [State.new]
  · intro e he
    cases he

theorem Holds.insert [LT Key] [DecidableLT Key] (h : Holds s t) {a : Word} (val : Key)
    (ha : s.Allocatable a) :
    ∃ s' t' c, s.insert a val = some s' ∧ Holds s' t' ∧ t = plug c .nil ∧ Directed val c ∧
      t'.entries = before c ++ (a, val) :: after c ∧ s'.nil = s.nil := by
  obtain ⟨s', t', c, he, hz, hrb, hplug, hdir, hent, hnil, htrace⟩ :=
    insert_spec val h.zip h.redBlack (h.zip.freshFor ha)
  exact ⟨s', t', c, he, ⟨hz, hrb, htrace.harmless hnil h.harmless⟩, hplug, hdir, hent, hnil⟩

theorem Holds.erase (h : Holds s t) {p : Word} (hp : s.IsNode p) :
    ∃ s' freed t' pre post k, s.erase p = some (s', some freed) ∧ Holds s' t' ∧
      t.entries = pre ++ (p, k) :: post ∧ t'.keys = (pre ++ post).map Prod.snd ∧
      t.locs.Perm (freed :: t'.locs) ∧ (s.mem p).key = k ∧ s'.nil = s.nil := by
  obtain ⟨s', freed, he, herased⟩ := erase_spec h.zip h.redBlack (h.zip.isNode_iff.mp hp)
  obtain ⟨t', pre, post, k, hz, hrb, hent, hkeys, hperm⟩ := herased.tree
  have hkey : (s.mem p).key = k := h.zip.focus.key_of_mem (by simp [hent])
  exact ⟨s', freed, t', pre, post, k, he,
    ⟨hz, hrb, herased.trace.harmless herased.nil h.harmless⟩, hent, hkeys, hperm, hkey,
    herased.nil⟩

@[simp] theorem State.erase_null (s : State Key) : s.erase null = some (s, none) := by
  simp [State.erase]

/-! ## The representation invariant -/

/-- The red-black invariant in terms of pointers and colour bits. -/
structure RedBlackState (s : State Key) : Prop where
  root_black : (s.mem s.root).isBlack = true
  red_child : ∀ p, s.IsNode p → (s.mem p).isRed = true →
    ∀ i, (s.mem ((s.mem p).ch i)).isBlack = true
  black_paths : ∃ n, ∀ m, s.BlackPath s.root m → m = n
  child_par : ∀ p i, s.IsNode p → (s.mem p).ch i ≠ s.nil →
    (s.mem ((s.mem p).ch i)).getPar = p
  root_par : s.root ≠ s.nil → (s.mem s.root).getPar = s.nil
  sentinel_black : (s.mem s.nil).isBlack = true
  sentinel_ch : ∀ i, (s.mem s.nil).ch i = s.nil
  harmless : ∀ e ∈ s.trace, e.Harmless s.nil

theorem State.BlackPath.of_nil {n : Nat} (h : s.BlackPath s.nil n) : n = 0 := by
  cases h with
  | nil => rfl
  | node _ hp _ => exact absurd rfl hp

/-- Every path down a balanced tree meets as many black nodes as its black height. -/
theorem Repr.blackPath {par : Word} {n m : Nat} (h : Repr s par t) (hb : t.Balanced n)
    (hm : s.BlackPath (ptr s.nil t) m) : m = n := by
  induction t generalizing par n m with
  | nil => exact hm.of_nil.trans (show n = 0 from hb).symm
  | node a b k l r ihl ihr =>
      obtain ⟨hn, hl, hr, hrl, hrr⟩ := h
      have below : ∀ n', l.Balanced n' → r.Balanced n' → ∀ i m',
          s.BlackPath ((s.mem a).ch i) m' → m' = n' := by
        intro n' hbl hbr i m' hm'
        cases i with
        | false => exact ihl hrl hbl (hl ▸ hm')
        | true => exact ihr hrr hbr (hr ▸ hm')
      rw [ptr] at hm
      cases hm with
      | nil => exact absurd rfl hn.ne_nil
      | node i hp hm' =>
          rw [hn.black]
          cases b with
          | true =>
              obtain ⟨n', rfl, hbl, hbr⟩ := hb
              rw [below n' hbl hbr i _ hm']
              rfl
          | false => exact below n hb.2.1 hb.2.2 i _ hm'

theorem Holds.redBlackState (h : Holds s t) : RedBlackState s := by
  have hroot : s.root = ptr s.nil t := h.zip.ctx
  have hs := h.zip.sentinel
  -- a node of the state is the root of a focus, with its two subtrees
  have focus : ∀ p, s.IsNode p → ∃ c b k l r, t = plug c (.node p b k l r) ∧
      Repr s (parent s.nil c) (.node p b k l r) := by
    intro p hp
    obtain ⟨c, b, k, l, r, rfl⟩ := exists_ctx_of_mem (h.zip.isNode_iff.mp hp)
    exact ⟨c, b, k, l, r, rfl, h.zip.unplug.focus⟩
  refine ⟨?_, ?_, ?_, ?_, ?_, hs.black, hs.ch, h.harmless⟩
  · rw [hroot, h.zip.focus.isBlack_ptr hs]
    exact h.redBlack.1
  · intro p hp hred i
    obtain ⟨c, b, k, l, r, rfl, hn, hl, hr, hrl, hrr⟩ := focus p hp
    obtain ⟨n, -, hb, -⟩ := h.redBlack.unplug
    have hbf : b = false := by
      rw [← hn.black]
      simpa [Node.isRed_eq] using hred
    subst hbf
    obtain ⟨⟨hlb, hrb⟩, -, -⟩ := hb
    cases i with
    | false => rw [hl, hrl.isBlack_ptr hs, hlb]
    | true => rw [hr, hrr.isBlack_ptr hs, hrb]
  · obtain ⟨-, n, hb⟩ := h.redBlack
    exact ⟨n, fun m hm => h.zip.focus.blackPath hb (hroot ▸ hm)⟩
  · intro p i hp hch
    obtain ⟨c, b, k, l, r, rfl, hn, hl, hr, hrl, hrr⟩ := focus p hp
    cases i with
    | false =>
        rw [hl] at hch ⊢
        exact hrl.getPar_ptr (fun e => hch (hrl.ptr_eq_nil_iff.mpr e))
    | true =>
        rw [hr] at hch ⊢
        exact hrr.getPar_ptr (fun e => hch (hrr.ptr_eq_nil_iff.mpr e))
  · intro hne
    rw [hroot] at hne ⊢
    exact h.zip.focus.getPar_ptr (fun e => hne (h.zip.focus.ptr_eq_nil_iff.mpr e))

/-! ## Histories -/

/-- The states that a history of calls reaches from an empty tree, with the keys
it inserted and the keys of the nodes it erased. -/
inductive Run [LT Key] [DecidableLT Key] : State Key → Multiset Key → Multiset Key → Prop
  | new {nil : Word} (hne : nil ≠ null) (heven : IsEven nil) (mem : Word → Node Key) :
      Run (State.new nil mem) 0 0
  | insert {s s' : State Key} {ins del : Multiset Key} {a : Word} {val : Key}
      (h : Run s ins del) (ha : s.Allocatable a) (he : s.insert a val = some s') :
      Run s' (val ::ₘ ins) del
  | erase {s s' : State Key} {ins del : Multiset Key} {p : Word} {freed : Option Word}
      (h : Run s ins del) (hp : s.IsNode p) (he : s.erase p = some (s', freed)) :
      Run s' ins ((s.mem p).key ::ₘ del)
  | eraseNull {s s' : State Key} {ins del : Multiset Key} {freed : Option Word}
      (h : Run s ins del) (he : s.erase null = some (s', freed)) : Run s' ins del

variable [LT Key] [DecidableLT Key] {ins del : Multiset Key}

theorem Run.holds (h : Run s ins del) : ∃ t, Holds s t := by
  induction h with
  | new hne heven mem => exact ⟨.nil, Holds.new hne heven mem⟩
  | insert _ ha he ih =>
      obtain ⟨t, ht⟩ := ih
      obtain ⟨s₁, t', c, he', ht', -⟩ := ht.insert _ ha
      cases he.symm.trans he'
      exact ⟨t', ht'⟩
  | erase _ hp he ih =>
      obtain ⟨t, ht⟩ := ih
      obtain ⟨s₁, freed, t', pre, post, k, he', ht', -⟩ := ht.erase hp
      cases he.symm.trans he'
      exact ⟨t', ht'⟩
  | eraseNull _ he ih =>
      cases he.symm.trans (State.erase_null _)
      exact ih

theorem Run.isNode_ne_null (h : Run s ins del) {p : Word} (hp : s.IsNode p) : p ≠ null := by
  obtain ⟨t, ht⟩ := h.holds
  exact (ht.zip.node_ok (c := []) (ht.zip.isNode_iff.mp hp)).2.1

/-- The representation invariant holds after every history, and from every state
reached the next `insert` or `erase` terminates. -/
theorem run_redBlackState (h : Run s ins del) :
    RedBlackState s ∧ (∀ a val, s.Allocatable a → ∃ s', s.insert a val = some s') ∧
      ∀ p, s.IsNode p → ∃ s' freed, s.erase p = some (s', some freed) := by
  obtain ⟨t, ht⟩ := h.holds
  refine ⟨ht.redBlackState, ?_, ?_⟩
  · intro a val ha
    obtain ⟨s', -, -, he, -⟩ := ht.insert val ha
    exact ⟨s', he⟩
  · intro p hp
    obtain ⟨s', freed, -, -, -, -, he, -⟩ := ht.erase hp
    exact ⟨s', freed, he⟩

/-! ## A history -/

/-- A tree on the sentinel `nil` whose nodes lie at `ns`. -/
structure State.NodesAt (s : State Key) (nil : Word) (ns : List Word) : Prop where
  nil_eq : s.nil = nil
  holds : ∃ t, Holds s t ∧ t.locs.Perm ns

omit [LT Key] [DecidableLT Key] in
theorem State.NodesAt.isNode {nil p : Word} {ns : List Word} (h : s.NodesAt nil ns)
    (hp : p ∈ ns) : s.IsNode p := by
  obtain ⟨t, ht, hperm⟩ := h.holds
  exact ht.zip.isNode_iff.mpr (hperm.mem_iff.mpr hp)

/-- The next call inserts `val` in a node at `a`. -/
theorem State.NodesAt.insert {nil : Word} {ns : List Word} (h : s.NodesAt nil ns) (a : Word)
    (val : Key) (heven : IsEven a) (ha : a ∉ nil :: null :: ns) :
    s.Allocatable a ∧ ∃ s', s.insert a val = some s' ∧ s'.NodesAt nil (a :: ns) := by
  obtain ⟨t, ht, hperm⟩ := h.holds
  simp only [List.mem_cons, not_or] at ha
  have halloc : s.Allocatable a :=
    ⟨h.nil_eq ▸ ha.1, ha.2.1, heven, fun hnode => ha.2.2 (hperm.mem_iff.mp
      (ht.zip.isNode_iff.mp hnode))⟩
  obtain ⟨s', t', c, he, ht', rfl, -, hent, hnil⟩ := ht.insert val halloc
  have hold : (plug c .nil : RbTree Word Key).entries = before c ++ after c := by
    simp [entries_plug]
  refine ⟨halloc, s', he, hnil.trans h.nil_eq, t', ht', ?_⟩
  rw [RbTree.locs, hold] at hperm
  rw [RbTree.locs, hent]
  simp only [List.map_append, List.map_cons] at hperm ⊢
  exact List.perm_middle.trans (hperm.cons a)

omit [LT Key] [DecidableLT Key] in
theorem State.NodesAt.erase {nil p : Word} {ns : List Word} (h : s.NodesAt nil ns)
    (hp : p ∈ ns) : ∃ s' freed, s.erase p = some (s', some freed) ∧ s'.nil = nil := by
  obtain ⟨t, ht, -⟩ := h.holds
  obtain ⟨s', freed, -, -, -, -, he, -, -, -, -, -, hnil⟩ := ht.erase (h.isNode hp)
  exact ⟨s', freed, he, hnil.trans h.nil_eq⟩

/-- Five inserts, one of a key that is there, rotate the tree to the left, to the right and to
the left; then the root, which has two children, is erased, and its black successor needs a
rotation at its sibling. -/
theorem exists_run_history : ∃ s : State Nat, Run s {15, 20, 30, 20, 10} {20} ∧ s.nil = 8 ∧
    s.trace = [.rotate 32 80, .sibling 80, .sibling 80, .rotate 16 80, .rotate 64 80,
      .rotate 16 32] := by
  let s₀ : State Nat := State.new 8 fun _ => ⟨0, 0, fun _ => null, 0⟩
  have h₀ : s₀.NodesAt 8 [] := ⟨rfl, .nil, Holds.new (by decide) (by decide) _, .refl _⟩
  obtain ⟨ha₁, s₁, he₁, h₁⟩ := h₀.insert 16 10 (by decide) (by decide)
  obtain ⟨ha₂, s₂, he₂, h₂⟩ := h₁.insert 32 20 (by decide) (by decide)
  obtain ⟨ha₃, s₃, he₃, h₃⟩ := h₂.insert 48 30 (by decide) (by decide)
  obtain ⟨ha₄, s₄, he₄, h₄⟩ := h₃.insert 64 20 (by decide) (by decide)
  obtain ⟨ha₅, s₅, he₅, h₅⟩ := h₄.insert 80 15 (by decide) (by decide)
  obtain ⟨s₆, freed, he₆, hnil⟩ := h₅.erase (p := 32) (by decide)
  have hrun : Run s₆ {15, 20, 30, 20, 10} {(s₅.mem 32).key} :=
    (((((Run.new (by decide) (by decide) _).insert ha₁ he₁).insert ha₂ he₂).insert ha₃ he₃).insert
      ha₄ he₄ |>.insert ha₅ he₅).erase (h₅.isNode (by decide)) he₆
  have hcalls : ((s₀.insert 16 10).bind fun s => (s.insert 32 20).bind fun s =>
      (s.insert 48 30).bind fun s => (s.insert 64 20).bind fun s => (s.insert 80 15).bind fun s =>
        (s.erase 32).map fun r => ((s.mem 32).key, r.1.trace)) = some (20,
      [.rotate 32 80, .sibling 80, .sibling 80, .rotate 16 80, .rotate 64 80, .rotate 16 32]) := by
    decide
  simp only [he₁, he₂, he₃, he₄, he₅, he₆, Option.bind_some, Option.map_some, Option.some.injEq,
    Prod.mk.injEq] at hcalls
  rw [hcalls.1] at hrun
  exact ⟨s₆, hrun, hnil, hcalls.2⟩

theorem run_redBlackState_history :
    ∃ s : State Nat, Run s {15, 20, 30, 20, 10} {20} ∧ (RedBlackState s ∧
      (∀ a val, s.Allocatable a → ∃ s', s.insert a val = some s') ∧
      ∀ p, s.IsNode p → ∃ s' freed, s.erase p = some (s', some freed)) := by
  obtain ⟨s, hrun, -⟩ := exists_run_history
  exact ⟨s, hrun, run_redBlackState hrun⟩

/-! ## Refinement of a sorted multiset -/

section Ordered

variable [StrictWeakOrder Key]

theorem Holds.insert_sorted (h : Holds s t) (hs : Sorted t.keys) {a : Word} (val : Key)
    (ha : s.Allocatable a) :
    ∃ s' t', s.insert a val = some s' ∧ Holds s' t' ∧ Sorted t'.keys ∧
      (t'.keys : Multiset Key) = val ::ₘ t.keys ∧ t'.locs.Perm (a :: t.locs) ∧
      s'.nil = s.nil := by
  obtain ⟨s', t', c, he, ht', rfl, hdir, hent, hnil⟩ := h.insert val ha
  have hold : (plug c .nil : RbTree Word Key).entries = before c ++ after c := by
    simp [entries_plug]
  rw [RbTree.keys, hold] at hs
  obtain ⟨hbefore, hafter⟩ := hdir.sorted hs
  refine ⟨s', t', he, ht', ?_, ?_, ?_, hnil⟩
  · rw [RbTree.keys, hent]
    simp only [Sorted, List.map_append, List.map_cons, List.pairwise_append, List.pairwise_cons,
      List.mem_cons, List.mem_map] at hs ⊢
    obtain ⟨hb, hc, hbc⟩ := hs
    refine ⟨hb, ⟨?_, hc⟩, ?_⟩
    · rintro _ ⟨e, he, rfl⟩
      exact hafter e he
    · rintro _ ⟨e, hmem, rfl⟩ k (rfl | hk)
      · exact hbefore e hmem
      · exact hbc _ ⟨e, hmem, rfl⟩ k hk
  · rw [RbTree.keys, RbTree.keys, hent, hold]
    simp only [List.map_append, List.map_cons, Multiset.cons_coe]
    exact Multiset.coe_eq_coe.mpr List.perm_middle
  · rw [RbTree.locs, RbTree.locs, hent, hold]
    simp only [List.map_append, List.map_cons]
    exact List.perm_middle

omit [DecidableLT Key] [StrictWeakOrder Key] in
theorem Holds.erase_sorted (h : Holds s t) (hs : Sorted t.keys) {p : Word} (hp : s.IsNode p) :
    ∃ s' freed t', s.erase p = some (s', some freed) ∧ Holds s' t' ∧ Sorted t'.keys ∧
      (t.keys : Multiset Key) = (s.mem p).key ::ₘ t'.keys ∧ t.locs.Perm (freed :: t'.locs) ∧
      s'.nil = s.nil := by
  obtain ⟨s', freed, t', pre, post, k, he, ht', hent, hkeys, hperm, hkey, hnil⟩ := h.erase hp
  refine ⟨s', freed, t', he, ht', ?_, ?_, hperm, hnil⟩
  · rw [RbTree.keys, hent] at hs
    rw [hkeys]
    exact hs.sublist (List.Sublist.map _ (by simp))
  · rw [hkeys, hkey, RbTree.keys, hent]
    simp only [List.map_append, List.map_cons, Multiset.cons_coe]
    exact Multiset.coe_eq_coe.mpr List.perm_middle

theorem Run.sorted (h : Run s ins del) :
    ∃ t, Holds s t ∧ Sorted t.keys ∧ ins = del + t.keys := by
  induction h with
  | new hne heven mem => exact ⟨.nil, Holds.new hne heven mem, List.Pairwise.nil, rfl⟩
  | insert _ ha he ih =>
      obtain ⟨t, ht, hs, rfl⟩ := ih
      obtain ⟨s₁, t', he', ht', hs', hkeys, -⟩ := ht.insert_sorted hs _ ha
      cases he.symm.trans he'
      exact ⟨t', ht', hs', by rw [hkeys, Multiset.add_cons]⟩
  | erase _ hp he ih =>
      obtain ⟨t, ht, hs, rfl⟩ := ih
      obtain ⟨s₁, freed, t', he', ht', hs', hkeys, -⟩ := ht.erase_sorted hs hp
      cases he.symm.trans he'
      exact ⟨t', ht', hs', by rw [hkeys, Multiset.add_cons, Multiset.cons_add]⟩
  | eraseNull _ he ih =>
      cases he.symm.trans (State.erase_null _)
      exact ih

omit [LT Key] [DecidableLT Key] [StrictWeakOrder Key] in
theorem Holds.walk (h : Holds s t) : s.walk = some t.keys := by
  have hroot : s.root = ptr s.nil t := h.zip.ctx
  rw [State.walk, hroot]
  exact doWalk_spec h.zip.focus h.zip.count_lt

omit [LT Key] [DecidableLT Key] [StrictWeakOrder Key] in
/-- A location of the in-order sequence is a node that holds the key beside it. -/
theorem Holds.entry (h : Holds s t) {e : Word × Key} (he : e ∈ t.entries) :
    s.IsNode e.1 ∧ (s.mem e.1).key = e.2 ∧ e.1 ≠ s.nil ∧ e.1 ≠ null ∧ e.2 ∈ t.keys := by
  have hmem : e.1 ∈ t.locs := List.mem_map_of_mem he
  have hok := h.zip.node_ok (c := []) hmem
  exact ⟨h.zip.isNode_iff.mpr hmem, h.zip.focus.key_of_mem he, hok.1, hok.2.1,
    List.mem_map_of_mem he⟩

/-- `find_ge`: the first key in order that is not less than `val`. -/
theorem Holds.findGe (h : Holds s t) (hs : Sorted t.keys) (val : Key) :
    ∃ p, s.findGe val = some p ∧ ((p = null ∧ ∀ k ∈ t.keys, k < val) ∨
      (s.IsNode p ∧ (s.mem p).key ∈ t.keys ∧ ¬ (s.mem p).key < val ∧
        ∀ k ∈ t.keys, ¬ k < val → ¬ k < (s.mem p).key)) := by
  have hroot : s.root = ptr s.nil t := h.zip.ctx
  have hfind := doFindGe_spec val s.nil h.zip.focus hs h.zip.count_lt
  rw [← hroot] at hfind
  rw [State.findGe, hfind]
  cases hfirst : t.entries.find? (fun e => decide ¬ e.2 < val) with
  | none =>
      refine ⟨null, by simp, .inl ⟨rfl, fun k hk => ?_⟩⟩
      obtain ⟨e, he, rfl⟩ := List.mem_map.mp hk
      simpa using List.find?_eq_none.mp hfirst e he
  | some e =>
      obtain ⟨hp, pre, post, hent, hpre⟩ := List.find?_eq_some_iff_append.mp hfirst
      obtain ⟨hnode, hkey, hnil, hnull, hmem⟩ := h.entry (e := e) (by simp [hent])
      refine ⟨e.1, by simp [hnil], .inr ⟨hnode, hkey ▸ hmem, ?_, fun k hk hge => ?_⟩⟩
      · simpa [hkey] using hp
      · rw [hkey]
        rw [RbTree.keys, hent] at hk hs
        simp only [List.map_append, List.map_cons, List.mem_append, List.mem_cons] at hk
        rcases hk with hk | rfl | hk
        · obtain ⟨e', he', rfl⟩ := List.mem_map.mp hk
          exact absurd (by simpa using hpre e' he') hge
        · exact StrictWeakOrder.irrefl _
        · simp only [Sorted, List.map_append, List.map_cons, List.pairwise_append,
            List.pairwise_cons] at hs
          exact hs.2.1.1 k hk

omit [DecidableLT Key] in
/-- `find_le`: the last key in order that is not greater than `val`. -/
theorem Holds.findLe [LE Key] [DecidableLE Key] [ConsistentLe Key] (h : Holds s t)
    (hs : Sorted t.keys) (val : Key) :
    ∃ p, s.findLe val = some p ∧ ((p = null ∧ ∀ k ∈ t.keys, ¬ k ≤ val) ∨
      (s.IsNode p ∧ (s.mem p).key ∈ t.keys ∧ (s.mem p).key ≤ val ∧
        ∀ k ∈ t.keys, k ≤ val → ¬ (s.mem p).key < k)) := by
  have hroot : s.root = ptr s.nil t := h.zip.ctx
  have hfind := doFindLe_spec val s.nil h.zip.focus hs h.zip.count_lt
  rw [← hroot] at hfind
  rw [State.findLe, hfind]
  cases hlast : t.entries.reverse.find? (fun e => decide (e.2 ≤ val)) with
  | none =>
      refine ⟨null, by simp, .inl ⟨rfl, fun k hk => ?_⟩⟩
      obtain ⟨e, he, rfl⟩ := List.mem_map.mp hk
      simpa using List.find?_eq_none.mp hlast e (by simpa using he)
  | some e =>
      obtain ⟨hp, post, pre, hent, hpost⟩ := List.find?_eq_some_iff_append.mp hlast
      have hent' : t.entries = pre.reverse ++ e :: post.reverse := by
        simpa using congrArg List.reverse hent
      obtain ⟨hnode, hkey, hnil, hnull, hmem⟩ := h.entry (e := e) (by simp [hent'])
      refine ⟨e.1, by simp [hnil], .inr ⟨hnode, hkey ▸ hmem, ?_, fun k hk hle => ?_⟩⟩
      · simpa [hkey] using hp
      · rw [hkey]
        rw [RbTree.keys, hent'] at hk hs
        simp only [List.map_append, List.map_cons, List.mem_append, List.mem_cons] at hk
        rcases hk with hk | rfl | hk
        · simp only [Sorted, List.map_append, List.map_cons, List.pairwise_append,
            List.pairwise_cons, List.mem_cons] at hs
          exact hs.2.2 k hk e.2 (.inl rfl)
        · exact StrictWeakOrder.irrefl _
        · obtain ⟨e', he', rfl⟩ := List.mem_map.mp hk
          exact absurd hle (by simpa using hpost e' (by simpa using he'))

omit [LT Key] [DecidableLT Key] [StrictWeakOrder Key] in
/-- `find_kth`: the node at position `k`, or `null` past the end; it never returns
for a negative position. -/
theorem Holds.findKth (h : Holds s t) (k : Int) :
    (k < 0 ∧ s.findKth k = none) ∨
      (0 ≤ k ∧ ∃ p, s.findKth k = some p ∧ ((p = null ∧ t.keys.length ≤ k) ∨
        (s.IsNode p ∧ t.keys[k.toNat]? = some (s.mem p).key))) := by
  have hroot : s.root = ptr s.nil t := h.zip.ctx
  have hs := h.zip.sentinel
  have hcount := h.zip.count_lt
  have hsize : (s.mem s.root).size = t.count := hroot ▸ h.zip.focus.size_ptr hs
  have hlen : t.keys.length = t.count := by simp [RbTree.keys, RbTree.count]
  rw [State.findKth, hsize]
  rcases lt_or_ge k 0 with hneg | hk
  · refine .inl ⟨hneg, ?_⟩
    rw [if_neg (by omega), hroot]
    exact doFindKth_neg h.zip.focus hs hneg
  · refine .inr ⟨hk, ?_⟩
    by_cases hge : (t.count : Int) ≤ k
    · exact ⟨null, if_pos hge, .inl ⟨rfl, by omega⟩⟩
    · have hlt : k.toNat < t.entries.length := by
        rw [← RbTree.count]
        omega
      have hkth := doFindKth_spec (k := k.toNat) h.zip.focus hs hlt hcount
      rw [Int.toNat_of_nonneg hk, ← hroot, RbTree.locs, List.getElem?_map,
        List.getElem?_eq_getElem hlt, Option.map_some] at hkth
      obtain ⟨hnode, hkey, -⟩ := h.entry (List.getElem_mem hlt)
      refine ⟨_, (if_neg hge).trans hkth, .inr ⟨hnode, ?_⟩⟩
      rw [RbTree.keys, List.getElem?_map, List.getElem?_eq_getElem hlt, hkey]
      rfl

variable [LE Key] [DecidableLE Key] [ConsistentLe Key]

/-- After every history `walk` reports the sorted multiset of the keys inserted and
not erased; `insert` and `erase` change it by exactly one occurrence, and the
searches return the extremal nodes on either side of a value. -/
theorem run_refines_multiset (h : Run s ins del) :
    ∃ ks, s.walk = some ks ∧ Sorted ks ∧ ins = del + ks ∧
      (∀ a val, s.Allocatable a → ∃ s' ks', s.insert a val = some s' ∧ s'.walk = some ks' ∧
        (ks' : Multiset Key) = val ::ₘ ks) ∧
      (∀ p, s.IsNode p → ∃ s' freed ks', s.erase p = some (s', some freed) ∧
        s'.walk = some ks' ∧ (ks : Multiset Key) = (s.mem p).key ::ₘ ks') ∧
      s.erase null = some (s, none) ∧
      (∀ val, ∃ p, s.findGe val = some p ∧ (p = null ↔ ∀ k ∈ ks, ¬ val ≤ k) ∧
        (p ≠ null → s.IsNode p ∧ (s.mem p).key ∈ ks ∧ val ≤ (s.mem p).key ∧
          ∀ k ∈ ks, val ≤ k → (s.mem p).key ≤ k)) ∧
      (∀ val, ∃ p, s.findLe val = some p ∧ (p = null ↔ ∀ k ∈ ks, ¬ k ≤ val) ∧
        (p ≠ null → s.IsNode p ∧ (s.mem p).key ∈ ks ∧ (s.mem p).key ≤ val ∧
          ∀ k ∈ ks, k ≤ val → k ≤ (s.mem p).key)) ∧
      ∀ k p, s.findKth k = some p → p = null ∨ s.IsNode p := by
  obtain ⟨t, ht, hs, hkeys⟩ := h.sorted
  have hle : ∀ a b : Key, a ≤ b ↔ ¬ b < a := ConsistentLe.le_iff
  refine ⟨t.keys, ht.walk, hs, hkeys, ?_, ?_, State.erase_null s, ?_, ?_, ?_⟩
  · intro a val ha
    obtain ⟨s', t', he, ht', -, hkeys', -⟩ := ht.insert_sorted hs val ha
    exact ⟨s', t'.keys, he, ht'.walk, hkeys'⟩
  · intro p hp
    obtain ⟨s', freed, t', he, ht', -, hkeys', -⟩ := ht.erase_sorted hs hp
    exact ⟨s', freed, t'.keys, he, ht'.walk, hkeys'⟩
  · intro val
    obtain ⟨p, he, ⟨rfl, hall⟩ | ⟨hp, hmem, hge, hmin⟩⟩ := ht.findGe hs val
    · refine ⟨null, he, ?_, fun hne => absurd rfl hne⟩
      simpa [hle] using hall
    · have hne : p ≠ null := (h.isNode_ne_null hp)
      refine ⟨p, he, iff_of_false hne (fun hall => hall _ hmem ((hle _ _).mpr hge)), ?_⟩
      intro _
      refine ⟨hp, hmem, (hle _ _).mpr hge, fun k hk hvk => ?_⟩
      exact (hle _ _).mpr (hmin k hk ((hle _ _).mp hvk))
  · intro val
    obtain ⟨p, he, ⟨rfl, hall⟩ | ⟨hp, hmem, hle', hmax⟩⟩ := ht.findLe hs val
    · exact ⟨null, he, iff_of_true rfl hall, fun hne => absurd rfl hne⟩
    · have hne : p ≠ null := (h.isNode_ne_null hp)
      refine ⟨p, he, iff_of_false hne (fun hall => hall _ hmem hle'), ?_⟩
      intro _
      exact ⟨hp, hmem, hle', fun k hk hkv => (hle _ _).mpr (hmax k hk hkv)⟩
  · intro k p he
    rcases ht.findKth k with ⟨-, hnone⟩ | ⟨-, p', he', ⟨rfl, -⟩ | ⟨hp, -⟩⟩
    · cases he.symm.trans hnone
    · cases he.symm.trans he'
      exact .inl rfl
    · cases he.symm.trans he'
      exact .inr hp

end Ordered

/-- The keys that this history leaves. -/
theorem keys_history {ks : List Nat} (hs : Sorted ks)
    (hkeys : ({15, 20, 30, 20, 10} : Multiset Nat) = {20} + ks) : ks = [10, 15, 20, 30] := by
  have hins : ({15, 20, 30, 20, 10} : Multiset Nat) = {20} + ↑[10, 15, 20, 30] := by decide
  have hperm : ks.Perm [10, 15, 20, 30] :=
    Multiset.coe_eq_coe.mp (Multiset.add_right_inj.mp (hkeys.symm.trans hins))
  apply hperm.eq_of_pairwise (fun a b _ _ hab hba => Nat.le_antisymm hab hba)
  · exact hs.imp Nat.not_lt.mp
  · decide

theorem run_refines_multiset_history :
    ∃ s : State Nat, Run s {15, 20, 30, 20, 10} {20} ∧ s.walk = some [10, 15, 20, 30] ∧
      ∃ p, s.findGe 16 = some p ∧ (s.mem p).key = 20 := by
  obtain ⟨s, hrun, -⟩ := exists_run_history
  obtain ⟨ks, hwalk, hs, hkeys, -, -, -, hge, -⟩ := run_refines_multiset hrun
  obtain rfl := keys_history hs hkeys
  obtain ⟨p, hp, hnull, hbest⟩ := hge 16
  have hne : p ≠ null := fun e => hnull.mp e 20 (by decide) (by decide)
  obtain ⟨-, hmem, hle, hmin⟩ := hbest hne
  have hle' := hmin 20 (by decide) (by decide)
  simp only [List.mem_cons, List.not_mem_nil, or_false] at hmem
  exact ⟨s, hrun, hwalk, p, hp, by omega⟩

end Jkos.Rbt
