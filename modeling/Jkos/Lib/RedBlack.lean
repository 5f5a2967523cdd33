import Mathlib.Data.Multiset.Basic
import Mathlib.Tactic.Common

/-!
# Red-black trees with located nodes

Binary trees whose nodes carry a location, a colour and a key, together with the
contexts obtained by walking down such a tree. A pointer program that mutates a
tree around one node is described by a context and the subtree in its hole.

`Balanced t n` is the red-black invariant of a subtree with black height `n`;
`CtxBalanced c n` says that a context completes every balanced tree of height `n`
whose root colour fits its hole.
-/

namespace RedBlack

universe u v

/-- A binary tree of located, coloured keys. -/
inductive RbTree (Loc : Type u) (Key : Type v) where
  | nil
  | node (loc : Loc) (black : Bool) (key : Key) (left right : RbTree Loc Key)

/-- One step of a path: the hole is the child `dir` of the node, `sib` the other. -/
structure Frame (Loc : Type u) (Key : Type v) where
  dir : Bool
  loc : Loc
  black : Bool
  key : Key
  sib : RbTree Loc Key

/-- A path from a hole up to the root, innermost frame first. -/
abbrev Ctx (Loc : Type u) (Key : Type v) := List (Frame Loc Key)

variable {Loc : Type u} {Key : Type v}

namespace RbTree

/-- The node with child `x` on side `d` and child `y` on the other side. -/
def mk (d : Bool) (loc : Loc) (black : Bool) (key : Key) (x y : RbTree Loc Key) : RbTree Loc Key :=
  if d then node loc black key y x else node loc black key x y

/-- The located keys in order. -/
def entries : RbTree Loc Key → List (Loc × Key)
  | nil => []
  | node loc _ key l r => l.entries ++ (loc, key) :: r.entries

def locs (t : RbTree Loc Key) : List Loc := t.entries.map Prod.fst

def keys (t : RbTree Loc Key) : List Key := t.entries.map Prod.snd

def count (t : RbTree Loc Key) : Nat := t.entries.length

/-- Leaves count as black. -/
def isBlack : RbTree Loc Key → Bool
  | nil => true
  | node _ black _ _ _ => black

/-- Repaint the root. -/
def paint (b : Bool) : RbTree Loc Key → RbTree Loc Key
  | nil => nil
  | node loc _ key l r => node loc b key l r

/-- No red node has a red child, and every path down has `n` black nodes. -/
def Balanced : RbTree Loc Key → Nat → Prop
  | nil, n => n = 0
  | node _ true _ l r, n => ∃ m, n = m + 1 ∧ l.Balanced m ∧ r.Balanced m
  | node _ false _ l r, n =>
      (l.isBlack = true ∧ r.isBlack = true) ∧ l.Balanced n ∧ r.Balanced n

@[simp] theorem entries_nil : (nil : RbTree Loc Key).entries = [] := rfl

@[simp] theorem entries_node (loc : Loc) (b : Bool) (k : Key) (l r : RbTree Loc Key) :
    (node loc b k l r).entries = l.entries ++ (loc, k) :: r.entries := rfl

@[simp] theorem isBlack_mk (d : Bool) (loc : Loc) (b : Bool) (k : Key) (x y : RbTree Loc Key) :
    (mk d loc b k x y).isBlack = b := by
  cases d <;> rfl

theorem mk_not (d : Bool) (loc : Loc) (b : Bool) (k : Key) (x y : RbTree Loc Key) :
    mk (!d) loc b k x y = mk d loc b k y x := by
  cases d <;> rfl

/-- Every node is a `mk` in either direction. -/
theorem exists_mk (d : Bool) (loc : Loc) (b : Bool) (k : Key) (l r : RbTree Loc Key) :
    ∃ x y, node loc b k l r = mk d loc b k x y := by
  cases d
  · exact ⟨l, r, rfl⟩
  · exact ⟨r, l, rfl⟩

/-- A `mk` can be read in the other direction. -/
theorem mk_eq_mk (d e : Bool) (loc : Loc) (b : Bool) (k : Key) (x y : RbTree Loc Key) :
    ∃ x' y', mk d loc b k x y = mk e loc b k x' y' := by
  cases d <;> exact exists_mk e loc b k _ _

theorem mk_ne_nil (d : Bool) (loc : Loc) (b : Bool) (k : Key) (x y : RbTree Loc Key) :
    mk d loc b k x y ≠ nil := by
  cases d <;> simp [mk]

theorem eq_nil_or_mk (d : Bool) (t : RbTree Loc Key) :
    t = nil ∨ ∃ loc b k x y, t = mk d loc b k x y := by
  cases t with
  | nil => exact .inl rfl
  | node loc b k l r =>
      obtain ⟨x, y, h⟩ := exists_mk d loc b k l r
      exact .inr ⟨loc, b, k, x, y, h⟩

@[simp] theorem paint_mk (b' d : Bool) (loc : Loc) (b : Bool) (k : Key) (x y : RbTree Loc Key) :
    (mk d loc b k x y).paint b' = mk d loc b' k x y := by
  cases d <;> rfl

@[simp] theorem entries_paint (b : Bool) (t : RbTree Loc Key) : (t.paint b).entries = t.entries := by
  cases t <;> rfl

@[simp] theorem count_nil : (nil : RbTree Loc Key).count = 0 := rfl

@[simp] theorem count_node (loc : Loc) (b : Bool) (k : Key) (l r : RbTree Loc Key) :
    (node loc b k l r).count = l.count + r.count + 1 := by
  simp only [count, entries_node, List.length_append, List.length_cons]
  omega

@[simp] theorem count_mk (d : Bool) (loc : Loc) (b : Bool) (k : Key) (x y : RbTree Loc Key) :
    (mk d loc b k x y).count = x.count + y.count + 1 := by
  cases d <;> simp [mk, Nat.add_comm x.count]

/-- The in-order sequence of a `mk` up to permutation. -/
theorem entries_mk_perm (d : Bool) (loc : Loc) (b : Bool) (k : Key) (x y : RbTree Loc Key) :
    (mk d loc b k x y).entries.Perm ((loc, k) :: (x.entries ++ y.entries)) := by
  cases d
  · exact List.perm_middle
  · exact List.perm_middle.trans (List.Perm.cons _ List.perm_append_comm)

/-- The rotation that `d` names keeps the in-order sequence. -/
theorem entries_rotate (d : Bool) (a b : Loc) (ba bb : Bool) (ka kb : Key)
    (x y z : RbTree Loc Key) :
    (mk d b bb kb (mk d a ba ka x y) z).entries = (mk d a ba ka x (mk d b bb kb y z)).entries := by
  cases d <;> simp [mk]

/-- Repainting the two children and the node keeps the in-order sequence. -/
theorem entries_mk_congr (d : Bool) (loc : Loc) (b b' : Bool) (k : Key)
    {x x' y y' : RbTree Loc Key} (hx : x.entries = x'.entries) (hy : y.entries = y'.entries) :
    (mk d loc b k x y).entries = (mk d loc b' k x' y').entries := by
  cases d <;> simp [mk, hx, hy]

theorem balanced_black_iff (d : Bool) (loc : Loc) (k : Key) (x y : RbTree Loc Key) (n : Nat) :
    (mk d loc true k x y).Balanced n ↔ ∃ m, n = m + 1 ∧ x.Balanced m ∧ y.Balanced m := by
  cases d
  · rfl
  · simp only [mk, if_true, Balanced, and_comm (a := y.Balanced _)]

theorem balanced_red_iff (d : Bool) (loc : Loc) (k : Key) (x y : RbTree Loc Key) (n : Nat) :
    (mk d loc false k x y).Balanced n ↔
      (x.isBlack = true ∧ y.isBlack = true) ∧ x.Balanced n ∧ y.Balanced n := by
  cases d
  · rfl
  · simp only [mk, if_true, Balanced, and_comm (a := y.Balanced _), and_comm (a := y.isBlack = true)]

theorem isBlack_paint (t : RbTree Loc Key) : (t.paint true).isBlack = true := by
  cases t <;> rfl

theorem paint_of_isBlack {t : RbTree Loc Key} (h : t.isBlack = true) : t.paint true = t := by
  cases t with
  | nil => rfl
  | node a b k l r =>
      cases h
      rfl

/-- A tree of positive black height is not empty. -/
theorem Balanced.exists_mk {t : RbTree Loc Key} {n : Nat} (h : t.Balanced (n + 1)) (d : Bool) :
    ∃ a b k x y, t = mk d a b k x y := by
  obtain rfl | h' := eq_nil_or_mk d t
  · exact absurd (show n + 1 = 0 from h) (Nat.succ_ne_zero n)
  · exact h'

/-- Painting a red root black raises the black height by one. -/
theorem Balanced.paint_black {t : RbTree Loc Key} {n : Nat} (h : t.Balanced n)
    (hred : t.isBlack = false) : (t.paint true).Balanced (n + 1) := by
  cases t with
  | nil => cases hred
  | node loc b k l r =>
      cases b with
      | true => cases hred
      | false => exact ⟨n, rfl, h.2⟩

end RbTree

namespace Frame

/-- Close the frame with a tree in its hole. -/
def plug (f : Frame Loc Key) (t : RbTree Loc Key) : RbTree Loc Key :=
  .mk f.dir f.loc f.black f.key t f.sib

end Frame

/-- Close a whole context. -/
def plug : Ctx Loc Key → RbTree Loc Key → RbTree Loc Key
  | [], t => t
  | f :: c, t => plug c (f.plug t)

/-- The located keys of a context that precede its hole. -/
def before : Ctx Loc Key → List (Loc × Key)
  | [] => []
  | f :: c => before c ++ if f.dir then f.sib.entries ++ [(f.loc, f.key)] else []

/-- The located keys of a context that follow its hole. -/
def after : Ctx Loc Key → List (Loc × Key)
  | [] => []
  | f :: c => (if f.dir then [] else (f.loc, f.key) :: f.sib.entries) ++ after c

@[simp] theorem plug_nil (t : RbTree Loc Key) : plug [] t = t := rfl

@[simp] theorem plug_cons (f : Frame Loc Key) (c : Ctx Loc Key) (t : RbTree Loc Key) :
    plug (f :: c) t = plug c (f.plug t) := rfl

theorem Frame.entries_plug (f : Frame Loc Key) (t : RbTree Loc Key) :
    (f.plug t).entries =
      (if f.dir then f.sib.entries ++ [(f.loc, f.key)] else []) ++ t.entries ++
        (if f.dir then [] else (f.loc, f.key) :: f.sib.entries) := by
  cases h : f.dir <;> simp [Frame.plug, RbTree.mk, h]

/-- The hole contributes its own in-order sequence between the two halves. -/
theorem entries_plug (c : Ctx Loc Key) (t : RbTree Loc Key) :
    (plug c t).entries = before c ++ t.entries ++ after c := by
  induction c generalizing t with
  | nil => simp [before, after]
  | cons f c ih =>
      rw [plug_cons, ih, Frame.entries_plug]
      simp only [before, after, List.append_assoc]

theorem entries_plug_congr (c : Ctx Loc Key) {t t' : RbTree Loc Key} (h : t.entries = t'.entries) :
    (plug c t).entries = (plug c t').entries := by
  rw [entries_plug, entries_plug, h]

/-- Every node of a tree is the focus of some context. -/
theorem exists_ctx_of_mem {t : RbTree Loc Key} {loc : Loc} (h : loc ∈ t.locs) :
    ∃ c b k l r, t = plug c (.node loc b k l r) := by
  suffices general : ∀ c₀ : Ctx Loc Key, ∃ c b k l r, plug c₀ t = plug c (.node loc b k l r) from
    general []
  induction t with
  | nil => cases h
  | node loc' b k l r ihl ihr =>
      intro c₀
      simp only [RbTree.locs, RbTree.entries_node, List.map_append, List.map_cons, List.mem_append,
        List.mem_cons] at h
      rcases h with hl | rfl | hr
      · exact ihl hl (⟨false, loc', b, k, r⟩ :: c₀)
      · exact ⟨c₀, b, k, l, r, rfl⟩
      · exact ihr hr (⟨true, loc', b, k, l⟩ :: c₀)

/-- The first node of a non-empty tree is the focus of a context that continues
the given one and precedes nothing. -/
theorem exists_leftmost {t : RbTree Loc Key} (ht : t ≠ .nil) (c : Ctx Loc Key) :
    ∃ c' loc b k r rest, plug c' (.node loc b k .nil r) = plug c t ∧
      t.entries = (loc, k) :: rest ∧ before c' = before c ∧
      r.entries ++ after c' = rest ++ after c := by
  induction t generalizing c with
  | nil => exact absurd rfl ht
  | node loc b k l r ihl _ =>
      cases l with
      | nil => exact ⟨c, loc, b, k, r, r.entries, rfl, rfl, rfl, rfl⟩
      | node loc' b' k' l' r' =>
          obtain ⟨c', m, mb, mk, mr, rest, hplug, hent, hbefore, hafter⟩ :=
            ihl (by simp) (⟨false, loc, b, k, r⟩ :: c)
          refine ⟨c', m, mb, mk, mr, rest ++ (loc, k) :: r.entries, hplug, ?_, ?_, ?_⟩
          · rw [RbTree.entries_node, hent]
            rfl
          · rw [hbefore]
            simp [before]
          · rw [hafter]
            simp [after]

/-- Whether a hole accepts a red tree: it hangs below a black node. -/
def acceptsRed : Ctx Loc Key → Bool
  | [] => false
  | f :: _ => f.black

/-- The context completes a balanced tree of black height `n` into a red-black
tree with a black root, provided the tree is black or `acceptsRed` holds. -/
def CtxBalanced : Ctx Loc Key → Nat → Prop
  | [], _ => True
  | f :: c, n =>
      f.sib.Balanced n ∧
        ((f.black = true ∧ CtxBalanced c (n + 1)) ∨
          (f.black = false ∧ f.sib.isBlack = true ∧ acceptsRed c = true ∧ CtxBalanced c n))

/-- A red-black tree: balanced, with a black root. -/
def IsRedBlack (t : RbTree Loc Key) : Prop := t.isBlack = true ∧ ∃ n, t.Balanced n

theorem CtxBalanced.plug {c : Ctx Loc Key} {t : RbTree Loc Key} {n : Nat} (hc : CtxBalanced c n)
    (ht : t.Balanced n) (hcol : t.isBlack = true ∨ acceptsRed c = true) :
    IsRedBlack (plug c t) := by
  induction c generalizing t n with
  | nil =>
      rcases hcol with h | h
      · exact ⟨h, n, ht⟩
      · cases h
  | cons f c ih =>
      obtain ⟨hsib, ⟨hb, hc⟩ | ⟨hr, hsb, hacc, hc⟩⟩ := hc
      · refine ih hc ?_ (.inl ?_)
        · rw [Frame.plug, hb, RbTree.balanced_black_iff]
          exact ⟨n, rfl, ht, hsib⟩
        · rw [Frame.plug, RbTree.isBlack_mk, hb]
      · have htb : t.isBlack = true := by
          rcases hcol with h | h
          · exact h
          · exact absurd (hr.symm.trans h) (by decide)
        refine ih hc ?_ (.inr hacc)
        rw [Frame.plug, hr, RbTree.balanced_red_iff]
        exact ⟨⟨htb, hsb⟩, ht, hsib⟩

/-- A focus of a red-black tree and its context are balanced at a common height. -/
theorem IsRedBlack.unplug {c : Ctx Loc Key} {t : RbTree Loc Key} (h : IsRedBlack (plug c t)) :
    ∃ n, CtxBalanced c n ∧ t.Balanced n ∧ (t.isBlack = true ∨ acceptsRed c = true) := by
  induction c generalizing t with
  | nil =>
      obtain ⟨hb, n, ht⟩ := h
      exact ⟨n, trivial, ht, .inl hb⟩
  | cons f c ih =>
      obtain ⟨n, hc, hp, hcol⟩ := ih h
      rw [Frame.plug, RbTree.isBlack_mk] at hcol
      cases hf : f.black with
      | true =>
          rw [Frame.plug, hf, RbTree.balanced_black_iff] at hp
          obtain ⟨m, rfl, ht, hsib⟩ := hp
          exact ⟨m, ⟨hsib, .inl ⟨hf, hc⟩⟩, ht, .inr hf⟩
      | false =>
          rw [Frame.plug, hf, RbTree.balanced_red_iff] at hp
          obtain ⟨⟨htb, hsb⟩, ht, hsib⟩ := hp
          have hacc : acceptsRed c = true := by
            rcases hcol with h | h
            · exact absurd (hf.symm.trans h) (by decide)
            · exact h
          exact ⟨n, ⟨hsib, .inr ⟨hf, hsb, hacc, hc⟩⟩, ht, .inl htb⟩

/-- The keys play no role in the colour invariant. -/
theorem IsRedBlack.rekey {c : Ctx Loc Key} {loc : Loc} {b : Bool} {k k' : Key}
    {l r : RbTree Loc Key} (h : IsRedBlack (plug c (.node loc b k l r))) :
    IsRedBlack (plug c (.node loc b k' l r)) := by
  obtain ⟨n, hc, ht, hcol⟩ := h.unplug
  refine hc.plug ?_ hcol
  cases b <;> exact ht

end RedBlack
