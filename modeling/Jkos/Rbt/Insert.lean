import Jkos.Rbt.Zip

/-!
# `insert` keeps the red-black tree and adds one key

The descent leaves a context whose hole is the place of the new leaf, the sizes on
the way already incremented. The fix-up loop then moves a red focus upwards; its
invariant is a context balanced at the black height of the focus, so the only
possible violation is between the focus and its parent.
-/

namespace Jkos.Rbt

open RedBlack

universe u

variable {Key : Type u} {s s' : State Key} {c : Ctx Word Key} {t : RbTree Word Key}

/-! ## The fix-up loop -/

/-- A red parent hangs below a black grandparent. -/
theorem exists_black_frame {f : Frame Word Key} {n : Nat} (h : CtxBalanced (f :: c) n)
    (hf : f.black = false) :
    ∃ g c', c = g :: c' ∧ g.black = true ∧ f.sib.isBlack = true ∧ f.sib.Balanced n ∧
      g.sib.Balanced n ∧ CtxBalanced c' (n + 1) := by
  obtain ⟨hsib, ⟨hb, -⟩ | ⟨-, hsb, hacc, hc⟩⟩ := h
  · exact absurd (hf.symm.trans hb) (by decide)
  · cases c with
    | nil => cases hacc
    | cons g c' =>
        obtain ⟨hgsib, ⟨hgb, hc'⟩ | ⟨hgr, -⟩⟩ := hc
        · exact ⟨g, c', rfl, hgb, hsb, hsib, hgsib, hc'⟩
        · exact absurd (hgr.symm.trans hacc) (by decide)

/-- What the fix-up loops promise: a red-black tree with the same entries. -/
structure Fixed (s s' : State Key) (t : RbTree Word Key) : Prop where
  nil : s'.nil = s.nil
  trace : TraceOk s s'
  tree : ∃ t', Zip s' [] t' ∧ IsRedBlack t' ∧ t'.entries = t.entries

/-- The outer rotation of `insert`: the parent is recoloured and lifted over the
grandparent. -/
theorem Zip.insertRotate {d : Bool} {g p : Word} {gb pb : Bool} {gk pk : Key}
    {x y z : RbTree Word Key} {n : Nat}
    (h : Zip s c (.mk d g gb gk (.mk d p pb pk x y) z)) (hc : CtxBalanced c (n + 1))
    (hx : x.Balanced n) (hy : y.Balanced n) (hz : z.Balanced n) (hyb : y.isBlack = true)
    (hzb : z.isBlack = true) :
    Fixed s (((s.modify p Node.setBlack).modify g Node.setRed).rotate
        (((s.modify p Node.setBlack).modify g Node.setRed).getRef g) (!d))
      (plug c (.mk d g gb gk (.mk d p pb pk x y) z)) := by
  have h₁ : Zip (s.modify p Node.setBlack) c (.mk d g gb gk (.mk d p true pk x y) z) :=
    h.into.setBlack.up
  have h₂ := h₁.setRed
  rw [h₂.getRef]
  rw [← RbTree.mk_not, ← RbTree.mk_not d p] at h₂
  obtain ⟨h₃, hnil, htrace⟩ := h₂.rotate
  have hne := h.into.focus
  rw [repr_mk] at hne
  refine ⟨hnil, TraceOk.rotate htrace (repr_mk.mp h.focus).1.ne_nil hne.1.ne_nil, _,
    h₃.plugged, ?_, ?_⟩
  · refine hc.plug ?_ (.inl (RbTree.isBlack_mk ..))
    rw [RbTree.balanced_black_iff]
    refine ⟨n, rfl, ?_, hx⟩
    rw [RbTree.balanced_red_iff]
    exact ⟨⟨hzb, hyb⟩, hz, hy⟩
  · rw [entries_plug, entries_plug]
    congr 2
    cases d <;> simp [RbTree.mk]

/-- The recolouring of `insert` below a red uncle. -/
theorem Zip.recolour {f g : Frame Word Key} {t : RbTree Word Key}
    (h : Zip s (f :: g :: c) t) (hu : g.sib.isBlack = false) :
    Zip (((s.modify f.loc Node.setBlack).modify (ptr s.nil g.sib) Node.setBlack).modify g.loc
      Node.setRed) c
      (.mk g.dir g.loc false g.key (.mk f.dir f.loc true f.key t f.sib) (g.sib.paint true)) := by
  have h₁ : Zip (s.modify f.loc Node.setBlack) c
      (.mk g.dir g.loc g.black g.key (.mk f.dir f.loc true f.key t f.sib) g.sib) :=
    h.up.setBlack.up
  obtain hsib | ⟨u, b, k, x, y, hsib⟩ := RbTree.eq_nil_or_mk false g.sib
  · rw [hsib] at hu
    cases hu
  · rw [hsib] at h₁ ⊢
    have h₂ := h₁.into'.setBlack.up
    rw [Frame.plug, RbTree.mk_not] at h₂
    rw [ptr_mk, RbTree.paint_mk]
    exact h₂.setRed

/-- One turn of the loop below a red parent, with the pointer reads resolved:
the grandparent's child `d` is the parent, whose child `e` is the focus. -/
theorem State.insertFix_red {fuel : Nat} {cur par gpar uncle : Word}
    {d e : Bool} (hpar : (s.mem cur).getPar = par) (hnil : par ≠ s.nil)
    (hred : (s.mem par).isRed = true) (hgpar : (s.mem par).getPar = gpar)
    (hd : (par == (s.mem gpar).ch false) = !d) (huncle : (s.mem gpar).ch (!d) = uncle)
    (he : (cur == (s.mem par).ch false) = !e) :
    s.insertFix (fuel + 1) cur =
      if (s.mem uncle).isRed then
        (((s.modify par Node.setBlack).modify uncle Node.setBlack).modify gpar
          Node.setRed).insertFix fuel gpar
      else
        let sp := if e = d then (s, par) else
          (s.rotate (.child gpar d) d, ((s.rotate (.child gpar d) d).mem par).getPar)
        let s := (sp.1.modify sp.2 Node.setBlack).modify gpar Node.setRed
        some (s.rotate (s.getRef gpar) (!d)) := by
  have hne : ((!e) ≠ (!d)) = ¬ (e = d) := by
    cases e <;> cases d <;> simp
  simp only [State.insertFix, hpar, hgpar, hd, huncle, he, hne, Bool.not_not, ite_not]
  rw [if_pos ⟨hnil, hred⟩]

/-- The fix-up loop at a red focus `a` whose subtrees are black. -/
theorem insertFix_spec {fuel n : Nat} {d : Bool} {a : Word} {k : Key} {x y : RbTree Word Key}
    (h : Zip s c (.mk d a false k x y)) (hc : CtxBalanced c n)
    (ht : (RbTree.mk d a false k x y).Balanced n) (hfuel : c.length < fuel) :
    ∃ s', s.insertFix fuel a = some s' ∧ Fixed s s' (plug c (.mk d a false k x y)) := by
  induction fuel generalizing s c n d a k x y with
  | zero => omega
  | succ fuel ih =>
      have hpar : (s.mem a).getPar = parent s.nil c := (repr_mk.mp h.focus).1.par
      cases c with
      | nil =>
          refine ⟨s.modify a Node.setBlack, ?_, rfl, TraceOk.of_eq rfl, _, h.setBlack, ?_, ?_⟩
          · simp [State.insertFix, hpar, parent]
          · rw [RbTree.balanced_red_iff] at ht
            refine ⟨RbTree.isBlack_mk .., n + 1, ?_⟩
            rw [RbTree.balanced_black_iff]
            exact ⟨n, rfl, ht.2⟩
          · exact RbTree.entries_mk_congr d a true false k rfl rfl
      | cons f c =>
          rw [parent_cons] at hpar
          have hfn : f.loc ≠ s.nil := h.ctx.1.ne_nil
          have hfb : (s.mem f.loc).isBlack = f.black := h.ctx.1.black
          cases hblack : f.black with
          | true =>
              rw [hblack] at hfb
              refine ⟨s, ?_, rfl, TraceOk.of_eq rfl, _, h.plugged, ?_, rfl⟩
              · simp [State.insertFix, hpar, hfn, Node.isRed_eq, hfb]
              · exact hc.plug ht (.inr hblack)
          | false =>
              rw [hblack] at hfb
              obtain ⟨g, c, rfl, hgb, hfsb, hfs, hgs, hc⟩ := exists_black_frame hc hblack
              have hp := h.up
              have hd : (f.loc == (s.mem g.loc).ch false) = !g.dir := by
                have side := hp.side (.inl (RbTree.mk_ne_nil _ _ _ _ _ _)) false
                rw [Frame.plug, ptr_mk] at side
                rw [side]
                cases g.dir <;> rfl
              have he : (a == (s.mem f.loc).ch false) = !f.dir := by
                have side := h.side (.inl (RbTree.mk_ne_nil _ _ _ _ _ _)) false
                rw [ptr_mk] at side
                rw [side]
                cases f.dir <;> rfl
              have huncle : (s.mem g.loc).ch (!g.dir) = ptr s.nil g.sib := hp.ctx.2.2.1
              have hgpar : (s.mem f.loc).getPar = g.loc := h.ctx.1.par
              have hred : (s.mem f.loc).isRed = true := by
                rw [Node.isRed_eq, hfb]
                rfl
              have hub := Repr.isBlack_ptr hp.ctx.2.2.2.1 hp.sentinel
              rw [State.insertFix_red hpar hfn hred hgpar hd huncle he, Node.isRed_eq, hub]
              cases husib : g.sib.isBlack with
              | false =>
                  rw [Bool.not_false, if_pos rfl]
                  have hbal : (RbTree.mk g.dir g.loc false g.key
                      (.mk f.dir f.loc true f.key (.mk d a false k x y) f.sib)
                      (g.sib.paint true)).Balanced (n + 1) := by
                    rw [RbTree.balanced_red_iff, RbTree.balanced_black_iff]
                    refine ⟨⟨RbTree.isBlack_mk .., ?_⟩, ⟨n, rfl, ht, hfs⟩, hgs.paint_black husib⟩
                    cases g.sib <;> rfl
                  obtain ⟨s', he, hfix⟩ := ih (h.recolour husib) hc hbal
                    (by simp only [List.length_cons] at hfuel; omega)
                  obtain ⟨t', hz, hrb, hent⟩ := hfix.tree
                  refine ⟨s', he, hfix.nil, (TraceOk.of_eq rfl).trans rfl hfix.trace, t', hz,
                    hrb, hent.trans ?_⟩
                  rw [plug_cons, plug_cons, entries_plug, entries_plug, Frame.plug, Frame.plug]
                  congr 2
                  exact RbTree.entries_mk_congr _ _ _ _ _ (RbTree.entries_mk_congr _ _ _ _ _ rfl rfl)
                    (RbTree.entries_paint ..)
              | true =>
                  rw [if_neg (by simp)]
                  by_cases hfd : f.dir = g.dir
                  · rw [if_pos hfd]
                    have hz : Zip s c (.mk g.dir g.loc g.black g.key
                        (.mk g.dir f.loc f.black f.key (.mk d a false k x y) f.sib) g.sib) := by
                      have := hp.up
                      simpa only [Frame.plug, hfd] using this
                    refine ⟨_, rfl, ?_⟩
                    have := hz.insertRotate hc ht hfs hgs hfsb husib
                    simpa only [plug_cons, Frame.plug, hfd] using this
                  · rw [if_neg hfd]
                    have hfd' : f.dir = !g.dir := by
                      cases hf : f.dir <;> cases hg : g.dir <;> simp_all
                    obtain ⟨x', y', hxy⟩ := RbTree.mk_eq_mk d g.dir a false k x y
                    rw [hxy] at hp ht ⊢
                    -- first rotation: the focus moves above its parent
                    rw [Frame.plug, hfd', RbTree.mk_not] at hp
                    obtain ⟨hr, hnil, htrace⟩ := hp.rotate
                    rw [RbTree.balanced_red_iff] at ht
                    obtain ⟨⟨hxb, hyb⟩, hx, hy⟩ := ht
                    have hcur : ((s.rotate (.child g.loc g.dir) g.dir).mem f.loc).getPar = a :=
                      (repr_mk.mp (repr_mk.mp hr.focus).2.2.2.1).1.par
                    have hlow : (RbTree.mk g.dir f.loc f.black f.key f.sib x').Balanced n := by
                      rw [hblack, RbTree.balanced_red_iff]
                      exact ⟨⟨hfsb, hxb⟩, hfs, hx⟩
                    have hfix := hr.up.insertRotate hc hlow hy hgs hyb husib
                    refine ⟨_, rfl, ?_⟩
                    have hnode := repr_mk.mp hp.focus
                    have hok : TraceOk s (s.rotate (.child g.loc g.dir) g.dir) :=
                      TraceOk.rotate htrace hnode.1.ne_nil (repr_mk.mp hnode.2.2.2.2).1.ne_nil
                    simp only [hcur]
                    obtain ⟨t', hz, hrb, hent⟩ := hfix.tree
                    refine ⟨hfix.nil.trans hnil, hok.trans hnil hfix.trace, t', hz, hrb,
                      hent.trans ?_⟩
                    rw [plug_cons, plug_cons, entries_plug, entries_plug, Frame.plug, Frame.plug,
                      hfd', RbTree.mk_not]
                    congr 2
                    exact RbTree.entries_mk_congr _ _ _ _ _ (RbTree.entries_rotate ..) rfl

/-! ## The descent -/

/-- A tree in focus whose ancestors already count one node more. -/
structure Grown (s : State Key) (c : Ctx Word Key) (t : RbTree Word Key) : Prop where
  sentinel : Sentinel s
  ctx : CtxRepr s c (ptr s.nil t) (t.count + 1)
  focus : Repr s (parent s.nil c) t
  nodup : (plug c t).locs.Nodup

/-- Every turn of a path goes right exactly where the key is less than `val`. -/
def Directed [LT Key] [DecidableLT Key] (val : Key) (c : Ctx Word Key) : Prop :=
  ∀ f ∈ c, f.dir = decide (f.key < val)

theorem Grown.into {d : Bool} {a : Word} {b : Bool} {k : Key} {x y : RbTree Word Key}
    (h : Grown s c (.mk d a b k x y)) :
    Grown (s.modify a (fun n => n.setSize (n.size + 1))) (⟨d, a, b, k, y⟩ :: c) x := by
  obtain ⟨hn, hd, hd', hx, hy⟩ := repr_mk.mp h.focus
  have hnd := (locs_plug_perm c (RbTree.mk d a b k x y)).nodup_iff.mp h.nodup
  have hmk := (locs_mk_perm d a b k x y).nodup_iff.mp (List.nodup_append.mp hnd).2.1
  simp only [List.nodup_cons, List.mem_append, not_or] at hmk
  have hac : a ∉ ctxLocs c := fun hq =>
    (List.nodup_append.mp hnd).2.2 a hq a (mem_locs_mk.mpr (.inl rfl)) rfl
  have hctx := h.ctx
  rw [ptr_mk, RbTree.count_mk] at hctx
  have keep : ∀ q, q ≠ a → (s.modify a (fun n => n.setSize (n.size + 1))).mem q = s.mem q :=
    fun q hq => State.mem_modify_ne s _ hq
  have hs := h.sentinel
  refine ⟨⟨hs.even, hs.ne_null, ?_, ?_, ?_⟩, ⟨⟨hn.ne_nil, hn.ne_null, hn.even, ?_, ?_, ?_, ?_⟩,
    ?_, ?_, ?_, ?_⟩, ?_, h.nodup⟩
  · rw [State.nil_modify, keep _ hn.ne_nil.symm, hs.black]
  · intro i
    rw [State.nil_modify, keep _ hn.ne_nil.symm, hs.ch]
  · rw [State.nil_modify, keep _ hn.ne_nil.symm, hs.size]
  · rw [State.mem_modify_same, Node.getPar_setSize, hn.par, State.nil_modify]
  · rw [State.mem_modify_same, Node.isBlack_setSize, hn.black]
  · rw [State.mem_modify_same, Node.key_setSize, hn.key]
  · rw [State.mem_modify_same, Node.size_setSize, hn.size]
    change (x.count : Int) + y.count + 1 + 1 = x.count + 1 + y.count + 1
    omega
  · rw [State.mem_modify_same, Node.ch_setSize, hd, State.nil_modify]
  · rw [State.mem_modify_same, Node.ch_setSize, hd', State.nil_modify]
  · exact hy.congr rfl fun q hq => keep q (fun e => hmk.1.2 (e ▸ hq))
  · have hsize : ((x.count : Int) + 1 + y.count + 1) = ((x.count + y.count + 1 : Nat) : Int) + 1 := by
      push_cast
      omega
    rw [hsize]
    exact hctx.congr rfl rfl fun q hq => keep q (fun e => hac (e ▸ hq))
  · exact hx.congr rfl fun q hq => keep q (fun e => hmk.1.1 (e ▸ hq))

theorem descend_spec [LT Key] [DecidableLT Key] (val : Key) {fuel : Nat} {t : RbTree Word Key}
    (h : Grown s c t) (hdir : Directed val c) (hfuel : t.count < fuel) :
    ∃ s' c', State.descend val fuel s (parent s.nil c) (ptr s.nil t) =
        some (s', parent s'.nil c') ∧
      Grown s' c' .nil ∧ plug c' .nil = plug c t ∧ Directed val c' ∧ s'.nil = s.nil ∧
      s'.trace = s.trace := by
  induction fuel generalizing s c t with
  | zero => omega
  | succ fuel ih =>
      cases t with
      | nil => exact ⟨s, c, by simp [State.descend], h, rfl, hdir, rfl, rfl⟩
      | node a b k l r =>
          have hnode := h.focus.1
          obtain ⟨x, y, hxy⟩ := RbTree.exists_mk (decide (k < val)) a b k l r
          rw [hxy] at h hfuel ⊢
          have hstep := h.into
          have hcount := RbTree.count_mk (decide (k < val)) a b k x y
          have hdir' : Directed val (⟨decide (k < val), a, b, k, y⟩ :: c) := by
            intro f hf
            rcases List.mem_cons.mp hf with rfl | hf
            · rfl
            · exact hdir f hf
          obtain ⟨s', c', he, hg, hplug, hd, hnil, htrace⟩ := ih hstep hdir' (by omega)
          refine ⟨s', c', ?_, hg, hplug, hd, hnil, htrace⟩
          rw [← he, ptr_mk, State.descend, if_neg hnode.ne_nil]
          have hch := (repr_mk.mp h.focus).2.1
          simp only [State.mem_modify_same, Node.key_setSize, Node.ch_setSize, hnode.key, hch]
          rfl

/-- Linking the new red leaf into the hole found by the descent. -/
theorem Grown.attach {f : Frame Word Key} {a : Word} {val : Key}
    (h : Grown s (f :: c) .nil) (hnil : s'.nil = s.nil) (hroot : s'.root = s.root)
    (ha : a ≠ s.nil ∧ a ≠ null ∧ IsEven a) (hfresh : a ∉ ctxLocs (f :: c))
    (hleaf : s'.mem a = ((((((s.mem a).setRed).setCh true s.nil).setCh false s.nil).setPar
      f.loc).setKey val).setSize 1)
    (hpar : s'.mem f.loc = (s.mem f.loc).setCh f.dir a)
    (hother : ∀ q, q ≠ a → q ≠ f.loc → s'.mem q = s.mem q) :
    Zip s' (f :: c) (.mk false a false val .nil .nil) := by
  have hfn := h.ctx.1
  have hfeven := hfn.even
  have hnd := (locs_plug_perm (f :: c) (RbTree.nil : RbTree Word Key)).nodup_iff.mp h.nodup
  have hs := h.sentinel
  have hsent : s'.mem s.nil = s.mem s.nil := hother _ ha.1.symm hfn.ne_nil.symm
  refine ⟨⟨?_, ?_, ?_, ?_, ?_⟩, ?_, ?_, ?_⟩
  · rw [hnil]
    exact hs.even
  · rw [hnil]
    exact hs.ne_null
  · rw [hnil, hsent, hs.black]
  · intro i
    rw [hnil, hsent, hs.ch]
  · rw [hnil, hsent, hs.size]
  · rw [ptr_mk]
    refine h.ctx.assign (List.nodup_append.mp hnd).1 hnil ?_ ?_ ?_
    · simpa using hroot
    · rintro g c' e
      cases e
      exact hpar
    · intro q hq hqp
      exact hother q (fun e => hfresh (e ▸ hq)) hqp
  · rw [repr_mk]
    refine ⟨⟨?_, ha.2.1, ha.2.2, ?_, ?_, ?_, ?_⟩, ?_, ?_, trivial, trivial⟩
    · rw [hnil]
      exact ha.1
    · rw [hleaf, Node.getPar_setSize, Node.getPar_setKey, Node.getPar_setPar _ hfeven,
        parent_cons]
    · rw [hleaf, Node.isBlack_setSize, Node.isBlack_setKey, Node.isBlack_setPar _ hfeven]
      simp
    · rw [hleaf, Node.key_setSize, Node.key_setKey]
    · rw [hleaf, Node.size_setSize]
      simp
    · rw [hleaf, hnil]
      simp
    · rw [hleaf, hnil]
      simp [Node.setCh]
  · refine (locs_plug_perm _ _).nodup_iff.mpr ?_
    rw [List.nodup_append] at hnd ⊢
    refine ⟨hnd.1, by simp [RbTree.locs, RbTree.mk], ?_⟩
    intro q hq q' hq' e
    have : q' = a := by simpa [RbTree.locs, RbTree.mk] using hq'
    exact hfresh (this ▸ e ▸ hq)

/-! ## The whole operation -/

/-- An address the allocator may return: usable as a node and not in the tree. -/
structure FreshFor (s : State Key) (t : RbTree Word Key) (a : Word) : Prop where
  ne_nil : a ≠ s.nil
  ne_null : a ≠ null
  even : IsEven a
  notMem : a ∉ t.locs

theorem Zip.count_lt (h : Zip s [] t) : t.count < loopBound := by
  have hlt := length_lt_loopBound (q := s.nil) h.nodup
    (fun hq => (h.node_ok hq).1 rfl)
  simpa [RbTree.count, RbTree.locs] using hlt

theorem length_ctx_le (c : Ctx Word Key) (t : RbTree Word Key) :
    c.length + t.count ≤ (plug c t).count := by
  induction c generalizing t with
  | nil => simp
  | cons f c ih =>
      have := ih (f.plug t)
      rw [plug_cons, List.length_cons]
      rw [Frame.plug, RbTree.count_mk] at this
      rw [Frame.plug]
      omega

/-- `insert` puts the new key into the hole of a path that follows `<`, and fixes
the colours without changing the in-order sequence. -/
theorem insert_spec [LT Key] [DecidableLT Key] {t : RbTree Word Key} {a : Word} (val : Key)
    (h : Zip s [] t) (hrb : IsRedBlack t) (ha : FreshFor s t a) :
    ∃ s' t' c, s.insert a val = some s' ∧ Zip s' [] t' ∧ IsRedBlack t' ∧
      t = plug c .nil ∧ Directed val c ∧ t'.entries = before c ++ (a, val) :: after c ∧
      s'.nil = s.nil ∧ TraceOk s s' := by
  have hroot : s.root = ptr s.nil t := h.ctx
  cases t with
  | nil =>
      have hempty : s.root = s.nil := hroot
      let n := (((((s.mem a).setBlack.setPar s.nil).setCh true s.nil).setCh false
        s.nil).setKey val).setSize 1
      let s' : State Key := { s with root := a, mem := fun q => if q = a then n else s.mem q }
      have hs := h.sentinel
      have hsent : s'.mem s.nil = s.mem s.nil := if_neg ha.ne_nil.symm
      have hleaf : s'.mem a = n := if_pos rfl
      refine ⟨s', .mk false a true val .nil .nil, [], ?_, ⟨⟨hs.even, hs.ne_null, ?_, ?_, ?_⟩,
        (ptr_mk ..).symm, ?_, ?_⟩, ?_, rfl, by simp [Directed], rfl, rfl, TraceOk.of_eq rfl⟩
      · rw [State.insert, if_pos hempty]
        simp only [State.modify, s', n, if_true, Option.some.injEq, State.mk.injEq, and_true,
          true_and]
        funext q
        by_cases hq : q = a <;> simp [hq]
      · rw [hsent, hs.black]
      · intro i
        rw [hsent, hs.ch]
      · rw [hsent, hs.size]
      · rw [repr_mk, hleaf]
        refine ⟨⟨ha.ne_nil, ha.ne_null, ha.even, ?_, ?_, ?_, ?_⟩, ?_, ?_, trivial, trivial⟩
        · rw [hleaf]
          simp [n, Node.getPar_setPar _ hs.even, parent, s']
        · rw [hleaf]
          simp [n, Node.isBlack_setPar _ hs.even]
        · rw [hleaf]
          simp [n]
        · rw [hleaf]
          simp [n]
        · simp [n, s']
        · simp [n, s', Node.setCh]
      · simp [RbTree.locs, RbTree.mk]
      · exact ⟨RbTree.isBlack_mk .., 1, 0, rfl, rfl, rfl⟩
  | node a' b k l r =>
      have hne : ¬ s.root = s.nil := by
        rw [hroot]
        exact h.focus.1.ne_nil
      have hgrown : Grown s [] (.node a' b k l r) := ⟨h.sentinel, h.ctx, h.focus, h.nodup⟩
      obtain ⟨s₁, c, he, hg, hplug, hdir, hnil, htrace⟩ :=
        descend_spec val hgrown (by simp [Directed]) h.count_lt
      rw [plug_nil] at hplug
      cases c with
      | nil => cases hplug
      | cons f c =>
          rw [← hplug] at hrb ha h ⊢
          obtain ⟨n, hc, rfl, -⟩ := hrb.unplug
          have hfn := hg.ctx.1
          have hfresh : a ∉ ctxLocs (f :: c) := fun hq =>
            ha.notMem (mem_locs_plug.mpr (.inl hq))
          have haf : a ≠ f.loc := fun e => hfresh (e ▸ mem_ctxLocs_cons.mpr (.inl rfl))
          have hkey : decide ((s₁.mem f.loc).key < val) = f.dir := by
            rw [hfn.key, ← hdir f (by simp)]
          let s₂ := (((((s₁.modify f.loc (·.setCh f.dir a)).modify a Node.setRed).modify a
            (fun n => (n.setCh true s₁.nil).setCh false s₁.nil)).modify a
            (·.setPar f.loc)).modify a (·.setKey val)).modify a (·.setSize 1)
          have hz : Zip s₂ (f :: c) (.mk false a false val .nil .nil) := by
            refine hg.attach rfl rfl ⟨hnil ▸ ha.ne_nil, ha.ne_null, ha.even⟩ hfresh ?_ ?_ ?_
            · simp [s₂, State.mem_modify_ne _ _ haf]
            · simp [s₂, State.mem_modify_ne _ _ haf.symm]
            · intro q hqa hqf
              simp [s₂, State.mem_modify_ne _ _ hqa, State.mem_modify_ne _ _ hqf]
          have hleaf : (RbTree.mk false a false val .nil .nil : RbTree Word Key).Balanced 0 :=
            ⟨⟨rfl, rfl⟩, rfl, rfl⟩
          have hlen : (f :: c).length < loopBound := by
            have := length_ctx_le (f :: c) (.nil : RbTree Word Key)
            have := h.count_lt
            omega
          obtain ⟨s', hfix, hfixed⟩ := insertFix_spec hz hc hleaf hlen
          obtain ⟨t', hz', hrb', hent⟩ := hfixed.tree
          have hnil₂ : s₂.nil = s.nil := hnil
          refine ⟨s', t', f :: c, ?_, hz', hrb', rfl, hdir, ?_, hfixed.nil.trans hnil₂, ?_⟩
          · rw [State.insert, if_neg hne]
            rw [parent, hroot.symm] at he
            simp only [he, parent_cons, hkey]
            exact hfix
          · rw [hent, entries_plug]
            simp [RbTree.mk]
          · have htrace' : TraceOk s s₂ := TraceOk.of_eq htrace
            exact htrace'.trans hnil₂ hfixed.trace

end Jkos.Rbt
