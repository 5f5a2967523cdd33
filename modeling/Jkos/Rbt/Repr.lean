import Jkos.Lib.RedBlack
import Jkos.Rbt.Basic

/-!
# Pointer trees represent located trees

`Repr s par t` says that the nodes of `s` at the locations of `t` are linked as
`t` is, below a parent `par`; `CtxRepr` says the same of a context. `Zip s c t`
puts both together at one position of the tree: it is the assertion that the
proofs about the operations carry along. The parent of the sentinel is never
mentioned, so operations may leave it arbitrary.
-/

namespace Jkos.Rbt

open RedBlack

universe u

variable {Key : Type u}

/-- The pointer to a tree. -/
def ptr (nil : Word) : RbTree Word Key → Word
  | .nil => nil
  | .node a _ _ _ _ => a

/-- The parent of the hole of a context. -/
def parent (nil : Word) : Ctx Word Key → Word
  | [] => nil
  | f :: _ => f.loc

/-- The reference that holds the pointer to the hole of a context. -/
def refOf : Ctx Word Key → Ref
  | [] => .treeRoot
  | f :: _ => .child f.loc f.dir

/-- The locations of a context. -/
def ctxLocs (c : Ctx Word Key) : List Word := (before c ++ after c).map Prod.fst

/-- Everything but the children of the node at `a`. -/
structure NodeIs (s : State Key) (a par : Word) (b : Bool) (k : Key) (n : Int) : Prop where
  ne_nil : a ≠ s.nil
  ne_null : a ≠ null
  even : IsEven a
  par : (s.mem a).getPar = par
  black : (s.mem a).isBlack = b
  key : (s.mem a).key = k
  size : (s.mem a).size = n

/-- The nodes at the locations of a tree are linked as the tree is. -/
def Repr (s : State Key) (par : Word) : RbTree Word Key → Prop
  | .nil => True
  | .node a b k l r =>
      NodeIs s a par b k (l.count + r.count + 1) ∧
        (s.mem a).ch false = ptr s.nil l ∧ (s.mem a).ch true = ptr s.nil r ∧
        Repr s a l ∧ Repr s a r

/-- The nodes of a context are linked as the context is, with the pointer `hole`
in its hole and sizes that count `n` nodes there. -/
def CtxRepr (s : State Key) : Ctx Word Key → Word → Int → Prop
  | [], hole, _ => s.root = hole
  | f :: c, hole, n =>
      NodeIs s f.loc (parent s.nil c) f.black f.key (n + f.sib.count + 1) ∧
        (s.mem f.loc).ch f.dir = hole ∧ (s.mem f.loc).ch (!f.dir) = ptr s.nil f.sib ∧
        Repr s f.loc f.sib ∧ CtxRepr s c f.loc (n + f.sib.count + 1)

/-- The shared sentinel: black, both children itself, size 0. -/
structure Sentinel (s : State Key) : Prop where
  even : IsEven s.nil
  ne_null : s.nil ≠ null
  black : (s.mem s.nil).isBlack = true
  ch : ∀ i, (s.mem s.nil).ch i = s.nil
  size : (s.mem s.nil).size = 0

/-- The state holds the tree `plug c t`, seen from the position of `t`. -/
structure Zip (s : State Key) (c : Ctx Word Key) (t : RbTree Word Key) : Prop where
  sentinel : Sentinel s
  ctx : CtxRepr s c (ptr s.nil t) t.count
  focus : Repr s (parent s.nil c) t
  nodup : (plug c t).locs.Nodup

/-- Memory represents at most one tree below a pointer. -/
theorem Repr.unique {s : State Key} {t t' : RbTree Word Key} {par par' : Word}
    (h : Repr s par t) (h' : Repr s par' t') (hptr : ptr s.nil t = ptr s.nil t') : t = t' := by
  induction t generalizing t' par par' with
  | nil =>
      cases t' with
      | nil => rfl
      | node a b k l r => exact absurd hptr.symm h'.1.ne_nil
  | node a b k l r ihl ihr =>
      cases t' with
      | nil => exact absurd hptr h.1.ne_nil
      | node a' b' k' l' r' =>
          obtain rfl : a = a' := hptr
          obtain ⟨hnode, hl, hr, hreprl, hreprr⟩ := h
          obtain ⟨hnode', hl', hr', hreprl', hreprr'⟩ := h'
          obtain rfl : l = l' := ihl hreprl hreprl' (hl.symm.trans hl')
          obtain rfl : r = r' := ihr hreprr hreprr' (hr.symm.trans hr')
          obtain rfl : b = b' := hnode.black.symm.trans hnode'.black
          obtain rfl : k = k' := hnode.key.symm.trans hnode'.key
          rfl

@[simp] theorem ptr_nil (nil : Word) : ptr nil (.nil : RbTree Word Key) = nil := rfl

@[simp] theorem ptr_mk (nil : Word) (d : Bool) (a : Word) (b : Bool) (k : Key)
    (x y : RbTree Word Key) : ptr nil (.mk d a b k x y) = a := by
  cases d <;> rfl

@[simp] theorem ptr_paint (nil : Word) (b : Bool) (t : RbTree Word Key) :
    ptr nil (t.paint b) = ptr nil t := by
  cases t <;> rfl

@[simp] theorem parent_cons (nil : Word) (f : Frame Word Key) (c : Ctx Word Key) :
    parent nil (f :: c) = f.loc := rfl

theorem mem_locs_mk {d : Bool} {a : Word} {b : Bool} {k : Key} {x y : RbTree Word Key} {q : Word} :
    q ∈ (RbTree.mk d a b k x y).locs ↔ q = a ∨ q ∈ x.locs ∨ q ∈ y.locs := by
  rw [RbTree.locs, ((RbTree.entries_mk_perm d a b k x y).map Prod.fst).mem_iff]
  simp [RbTree.locs]

theorem ctxLocs_cons_perm (f : Frame Word Key) (c : Ctx Word Key) :
    (ctxLocs (f :: c)).Perm (f.loc :: (f.sib.locs ++ ctxLocs c)) := by
  cases hdir : f.dir
  · simp only [ctxLocs, before, after, hdir, RbTree.locs, Bool.false_eq_true, if_false,
      List.append_nil, List.map_append, List.map_cons, List.cons_append]
    refine List.perm_middle.trans (List.Perm.cons _ ?_)
    rw [← List.append_assoc, ← List.append_assoc]
    exact List.perm_append_comm.append_right _
  · simp only [ctxLocs, before, after, hdir, RbTree.locs, if_true, List.map_append,
      List.map_cons, List.nil_append, List.append_assoc, List.cons_append]
    rw [← List.append_assoc]
    refine List.perm_middle.trans (List.Perm.cons _ ?_)
    rw [← List.append_assoc]
    exact List.perm_append_comm.append_right _

theorem mem_ctxLocs_cons {f : Frame Word Key} {c : Ctx Word Key} {q : Word} :
    q ∈ ctxLocs (f :: c) ↔ q = f.loc ∨ q ∈ f.sib.locs ∨ q ∈ ctxLocs c := by
  simp [(ctxLocs_cons_perm f c).mem_iff]

theorem mem_locs_plug {c : Ctx Word Key} {t : RbTree Word Key} {q : Word} :
    q ∈ (plug c t).locs ↔ q ∈ ctxLocs c ∨ q ∈ t.locs := by
  simp only [RbTree.locs, entries_plug, ctxLocs, List.map_append, List.mem_append]
  tauto

theorem repr_mk {s : State Key} {par : Word} {d : Bool} {a : Word} {b : Bool} {k : Key}
    {x y : RbTree Word Key} :
    Repr s par (.mk d a b k x y) ↔
      NodeIs s a par b k (x.count + y.count + 1) ∧
        (s.mem a).ch d = ptr s.nil x ∧ (s.mem a).ch (!d) = ptr s.nil y ∧
        Repr s a x ∧ Repr s a y := by
  cases d
  · rfl
  · have comm : (y.count : Int) + x.count + 1 = x.count + y.count + 1 := by omega
    simp only [RbTree.mk, if_true, Repr, Bool.not_true, comm]
    tauto

/-- The root of a represented tree is the sentinel exactly for the empty tree. -/
theorem Repr.ptr_eq_nil_iff {s : State Key} {par : Word} {t : RbTree Word Key} (h : Repr s par t) :
    ptr s.nil t = s.nil ↔ t = .nil := by
  cases t with
  | nil => simp
  | node a b k l r => simpa [ptr] using h.1.ne_nil

theorem Repr.nodeIs {s : State Key} {par : Word} {t : RbTree Word Key} (h : Repr s par t)
    {q : Word} (hq : q ∈ t.locs) : q ≠ s.nil ∧ q ≠ null ∧ IsEven q := by
  induction t generalizing par with
  | nil => cases hq
  | node a b k l r ihl ihr =>
      obtain ⟨hn, -, -, hl, hr⟩ := h
      rcases (mem_locs_mk (d := false)).mp hq with rfl | hq | hq
      · exact ⟨hn.ne_nil, hn.ne_null, hn.even⟩
      · exact ihl hl hq
      · exact ihr hr hq

/-- The key stored at a location is the key of the tree there. -/
theorem Repr.key_of_mem {s : State Key} {par : Word} {t : RbTree Word Key} (h : Repr s par t)
    {q : Word} {k : Key} (hq : (q, k) ∈ t.entries) : (s.mem q).key = k := by
  induction t generalizing par with
  | nil => cases hq
  | node a b k' l r ihl ihr =>
      obtain ⟨hn, -, -, hl, hr⟩ := h
      rw [RbTree.entries_node, List.mem_append, List.mem_cons] at hq
      rcases hq with hq | hq | hq
      · exact ihl hl hq
      · cases hq
        exact hn.key
      · exact ihr hr hq

theorem CtxRepr.nodeIs {s : State Key} {c : Ctx Word Key} {hole : Word} {n : Int}
    (h : CtxRepr s c hole n) {q : Word} (hq : q ∈ ctxLocs c) :
    q ≠ s.nil ∧ q ≠ null ∧ IsEven q := by
  induction c generalizing hole n with
  | nil => cases hq
  | cons f c ih =>
      obtain ⟨hn, -, -, hsib, hc⟩ := h
      rcases mem_ctxLocs_cons.mp hq with rfl | hq | hq
      · exact ⟨hn.ne_nil, hn.ne_null, hn.even⟩
      · exact hsib.nodeIs hq
      · exact ih hc hq

/-- The colour read at the root pointer is the colour of the tree, also for `nil`. -/
theorem Repr.isBlack_ptr {s : State Key} {par : Word} {t : RbTree Word Key} (h : Repr s par t)
    (hs : Sentinel s) : (s.mem (ptr s.nil t)).isBlack = t.isBlack := by
  cases t with
  | nil => exact hs.black
  | node a b k l r => exact h.1.black

/-- The size read at the root pointer is the number of nodes, also for `nil`. -/
theorem Repr.getPar_ptr {s : State Key} {par : Word} {t : RbTree Word Key} (h : Repr s par t)
    (ht : t ≠ .nil) : (s.mem (ptr s.nil t)).getPar = par := by
  cases t with
  | nil => exact absurd rfl ht
  | node a b k l r => exact h.1.par

theorem Repr.size_ptr {s : State Key} {par : Word} {t : RbTree Word Key} (h : Repr s par t)
    (hs : Sentinel s) : (s.mem (ptr s.nil t)).size = t.count := by
  cases t with
  | nil => exact hs.size
  | node a b k l r => simpa [ptr] using h.1.size

/-! ## Frame rules -/

theorem NodeIs.congr {s s' : State Key} {a par : Word} {b : Bool} {k : Key} {n : Int}
    (h : NodeIs s a par b k n) (hnil : s'.nil = s.nil) (hmem : s'.mem a = s.mem a) :
    NodeIs s' a par b k n := by
  obtain ⟨h₁, h₂, h₃, h₄, h₅, h₆, h₇⟩ := h
  rw [← hnil] at h₁
  rw [← hmem] at h₄ h₅ h₆ h₇
  exact ⟨h₁, h₂, h₃, h₄, h₅, h₆, h₇⟩

/-- A represented tree only depends on the memory at its locations. -/
theorem Repr.congr {s s' : State Key} {par : Word} {t : RbTree Word Key} (h : Repr s par t)
    (hnil : s'.nil = s.nil) (hmem : ∀ q ∈ t.locs, s'.mem q = s.mem q) : Repr s' par t := by
  induction t generalizing par with
  | nil => trivial
  | node a b k l r ihl ihr =>
      obtain ⟨hn, hcl, hcr, hl, hr⟩ := h
      have ha := hmem a ((mem_locs_mk (d := false)).mpr (.inl rfl))
      refine ⟨hn.congr hnil ha, ?_, ?_, ihl hl ?_, ihr hr ?_⟩
      · rw [ha, hnil, hcl]
      · rw [ha, hnil, hcr]
      · intro q hq
        exact hmem q ((mem_locs_mk (d := false)).mpr (.inr (.inl hq)))
      · intro q hq
        exact hmem q ((mem_locs_mk (d := false)).mpr (.inr (.inr hq)))

/-- Replacing only the parent of the root of a represented tree. -/
theorem Repr.reparent {s s' : State Key} {par par' : Word} {t : RbTree Word Key} (h : Repr s par t)
    (ht : t.locs.Nodup) (hnil : s'.nil = s.nil)
    (hroot : ptr s.nil t ∈ t.locs →
      (s'.mem (ptr s.nil t)).getPar = par' ∧
      (s'.mem (ptr s.nil t)).isBlack = (s.mem (ptr s.nil t)).isBlack ∧
      (s'.mem (ptr s.nil t)).ch = (s.mem (ptr s.nil t)).ch ∧
      (s'.mem (ptr s.nil t)).key = (s.mem (ptr s.nil t)).key ∧
      (s'.mem (ptr s.nil t)).size = (s.mem (ptr s.nil t)).size)
    (hmem : ∀ q ∈ t.locs, q ≠ ptr s.nil t → s'.mem q = s.mem q) : Repr s' par' t := by
  cases t with
  | nil => trivial
  | node a b k l r =>
      obtain ⟨⟨h₁, h₂, h₃, -, h₅, h₆, h₇⟩, hcl, hcr, hl, hr⟩ := h
      obtain ⟨e₁, e₂, e₃, e₄, e₅⟩ := hroot ((mem_locs_mk (d := false)).mpr (.inl rfl))
      simp only [ptr] at e₁ e₂ e₃ e₄ e₅ hmem
      have hnotin : a ∉ l.locs ∧ a ∉ r.locs := by
        have perm := (RbTree.entries_mk_perm false a b k l r).map Prod.fst
        have := perm.nodup_iff.mp ht
        simp only [List.map_cons, List.map_append, List.nodup_cons, List.mem_append] at this
        tauto
      refine ⟨⟨hnil ▸ h₁, h₂, h₃, e₁, e₂.trans h₅, e₄.trans h₆, e₅.trans h₇⟩, ?_, ?_,
        hl.congr hnil ?_, hr.congr hnil ?_⟩
      · rw [e₃, hnil, hcl]
      · rw [e₃, hnil, hcr]
      · intro q hq
        exact hmem q ((mem_locs_mk (d := false)).mpr (.inr (.inl hq)))
          (fun e => hnotin.1 (e ▸ hq))
      · intro q hq
        exact hmem q ((mem_locs_mk (d := false)).mpr (.inr (.inr hq)))
          (fun e => hnotin.2 (e ▸ hq))

/-- A represented context only depends on the root and on its locations. -/
theorem CtxRepr.congr {s s' : State Key} {c : Ctx Word Key} {hole : Word} {n : Int}
    (h : CtxRepr s c hole n) (hnil : s'.nil = s.nil) (hroot : s'.root = s.root)
    (hmem : ∀ q ∈ ctxLocs c, s'.mem q = s.mem q) : CtxRepr s' c hole n := by
  induction c generalizing hole n with
  | nil => exact hroot.trans h
  | cons f c ih =>
      obtain ⟨hn, hd, hd', hsib, hc⟩ := h
      have hf := hmem f.loc (mem_ctxLocs_cons.mpr (.inl rfl))
      refine ⟨?_, ?_, ?_, hsib.congr hnil ?_, ih hc ?_⟩
      · rw [hnil]
        exact hn.congr hnil hf
      · rw [hf, hd]
      · rw [hf, hnil, hd']
      · intro q hq
        exact hmem q (mem_ctxLocs_cons.mpr (.inr (.inl hq)))
      · intro q hq
        exact hmem q (mem_ctxLocs_cons.mpr (.inr (.inr hq)))

/-- Writing the hole of a represented context through its reference. -/
theorem CtxRepr.assign {s s' : State Key} {c : Ctx Word Key} {hole hole' : Word} {n : Int}
    (h : CtxRepr s c hole n) (hnd : (ctxLocs c).Nodup) (hnil : s'.nil = s.nil)
    (hroot : s'.root = if c = [] then hole' else s.root)
    (hpar : ∀ f c', c = f :: c' → s'.mem f.loc = (s.mem f.loc).setCh f.dir hole')
    (hmem : ∀ q ∈ ctxLocs c, q ≠ parent s.nil c → s'.mem q = s.mem q) :
    CtxRepr s' c hole' n := by
  cases c with
  | nil => exact hroot
  | cons f c =>
      obtain ⟨⟨h₁, h₂, h₃, h₄, h₅, h₆, h₇⟩, hd, hd', hsib, hc⟩ := h
      have hf := hpar f c rfl
      have hnotin : f.loc ∉ f.sib.locs ∧ f.loc ∉ ctxLocs c := by
        have := (ctxLocs_cons_perm f c).nodup_iff.mp hnd
        simp only [List.nodup_cons, List.mem_append] at this
        tauto
      refine ⟨⟨hnil ▸ h₁, h₂, h₃, ?_, ?_, ?_, ?_⟩, ?_, ?_, hsib.congr hnil ?_,
        hc.congr hnil (by simpa using hroot) ?_⟩
      · rw [hf, Node.getPar_setCh, h₄, hnil]
      · rw [hf, Node.isBlack_setCh, h₅]
      · rw [hf, Node.key_setCh, h₆]
      · rw [hf, Node.size_setCh, h₇]
      · rw [hf, Node.ch_setCh_same]
      · rw [hf, Node.ch_setCh_not, hd', hnil]
      · intro q hq
        refine hmem q (mem_ctxLocs_cons.mpr (.inr (.inl hq))) ?_
        rintro rfl
        exact hnotin.1 hq
      · intro q hq
        refine hmem q (mem_ctxLocs_cons.mpr (.inr (.inr hq))) ?_
        rintro rfl
        exact hnotin.2 hq

end Jkos.Rbt
