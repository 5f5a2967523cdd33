import Jkos.Rbt.Repr
import Jkos.Rbt.Rotate

/-!
# Moving around a represented tree

The rules the operations are verified with: `Zip.up` and `Zip.down` change the
position, `Zip.modifyRoot` updates the node in focus, `Zip.getRef` finds the
reference that holds it, and `Zip.rotate` is the specification of `rotate`.
-/

namespace Jkos.Rbt

open RedBlack

universe u

variable {Key : Type u} {s s' : State Key} {c : Ctx Word Key}

theorem locs_plug_perm (c : Ctx Word Key) (t : RbTree Word Key) :
    (plug c t).locs.Perm (ctxLocs c ++ t.locs) := by
  simp only [RbTree.locs, ctxLocs, entries_plug, List.map_append]
  rw [List.append_assoc, List.append_assoc]
  exact List.perm_append_comm.append_left _

theorem locs_mk_perm (d : Bool) (a : Word) (b : Bool) (k : Key) (x y : RbTree Word Key) :
    (RbTree.mk d a b k x y).locs.Perm (a :: (x.locs ++ y.locs)) := by
  have h := (RbTree.entries_mk_perm d a b k x y).map Prod.fst
  simpa [RbTree.locs] using h

/-- A node address outside a tree is not the pointer to it. -/
theorem ptr_ne {nil q : Word} {t : RbTree Word Key} (hq : q ≠ nil) (ht : q ∉ t.locs) :
    ptr nil t ≠ q := by
  rintro rfl
  cases t with
  | nil => exact hq rfl
  | node a b k l r => exact ht ((mem_locs_mk (d := false)).mpr (.inl rfl))

namespace Zip

variable {t : RbTree Word Key} {d : Bool} {a : Word} {b : Bool} {k : Key} {x y : RbTree Word Key}

theorem ctx_nodup (h : Zip s c t) : (ctxLocs c).Nodup :=
  (List.nodup_append.mp ((locs_plug_perm c t).nodup_iff.mp h.nodup)).1

theorem focus_nodup (h : Zip s c t) : t.locs.Nodup :=
  (List.nodup_append.mp ((locs_plug_perm c t).nodup_iff.mp h.nodup)).2.1

theorem disjoint (h : Zip s c t) {q : Word} (hq : q ∈ t.locs) : q ∉ ctxLocs c := fun hc =>
  (List.nodup_append.mp ((locs_plug_perm c t).nodup_iff.mp h.nodup)).2.2 q hc q hq rfl

/-- The locations of the node in focus and of its two subtrees are distinct. -/
theorem mk_nodup (h : Zip s c (.mk d a b k x y)) :
    a ∉ x.locs ∧ a ∉ y.locs ∧ x.locs.Nodup ∧ y.locs.Nodup ∧ ∀ q ∈ x.locs, q ∉ y.locs := by
  have hn := (locs_mk_perm d a b k x y).nodup_iff.mp h.focus_nodup
  simp only [List.nodup_cons, List.mem_append, List.nodup_append] at hn
  obtain ⟨hna, hx, hy, hxy⟩ := hn
  exact ⟨fun hq => hna (.inl hq), fun hq => hna (.inr hq), hx, hy,
    fun q hqx hqy => hxy q hqx q hqy rfl⟩

theorem root_notMem_ctx (h : Zip s c (.mk d a b k x y)) : a ∉ ctxLocs c :=
  h.disjoint (mem_locs_mk.mpr (.inl rfl))

/-- Every location of the tree is a proper node address. -/
theorem node_ok (h : Zip s c t) {q : Word} (hq : q ∈ (plug c t).locs) :
    q ≠ s.nil ∧ q ≠ null ∧ IsEven q := by
  rcases mem_locs_plug.mp hq with hc | ht
  · exact h.ctx.nodeIs hc
  · exact h.focus.nodeIs ht

/-! ## Navigation -/

theorem up {f : Frame Word Key} (h : Zip s (f :: c) t) : Zip s c (f.plug t) := by
  obtain ⟨hn, hd, hd', hsib, hc⟩ := h.ctx
  have count : (((f.plug t).count : Nat) : Int) = t.count + f.sib.count + 1 := by
    simp [Frame.plug]
  refine ⟨h.sentinel, ?_, ?_, h.nodup⟩
  · rw [count, Frame.plug, ptr_mk]
    exact hc
  · rw [Frame.plug, repr_mk]
    exact ⟨hn, hd, hd', h.focus, hsib⟩

theorem down {f : Frame Word Key} (h : Zip s c (f.plug t)) : Zip s (f :: c) t := by
  have count : (((f.plug t).count : Nat) : Int) = t.count + f.sib.count + 1 := by
    simp [Frame.plug]
  have hc := h.ctx
  rw [count, Frame.plug, ptr_mk] at hc
  have hf := h.focus
  rw [Frame.plug, repr_mk] at hf
  obtain ⟨hn, hd, hd', ht, hsib⟩ := hf
  exact ⟨h.sentinel, ⟨hn, hd, hd', hsib, hc⟩, ht, h.nodup⟩

/-- Descend into the child on side `d`. -/
theorem into (h : Zip s c (.mk d a b k x y)) : Zip s (⟨d, a, b, k, y⟩ :: c) x :=
  down (f := ⟨d, a, b, k, y⟩) h

/-- Descend into the child on the other side. -/
theorem into' (h : Zip s c (.mk d a b k x y)) : Zip s (⟨!d, a, b, k, x⟩ :: c) y := by
  rw [← RbTree.mk_not] at h
  exact h.into

theorem plugged (h : Zip s c t) : Zip s [] (plug c t) := by
  induction c generalizing t with
  | nil => exact h
  | cons f c ih => exact ih h.up

theorem unplug_append {c₀ : Ctx Word Key} (h : Zip s c₀ (plug c t)) : Zip s (c ++ c₀) t := by
  induction c generalizing t with
  | nil => exact h
  | cons f c ih => exact (ih h).down

theorem unplug (h : Zip s [] (plug c t)) : Zip s c t := by
  simpa using h.unplug_append

/-! ## Reading the state -/

theorem deref (h : Zip s c t) : s.deref (refOf c) = ptr s.nil t := by
  cases c with
  | nil => exact h.ctx
  | cons f c => exact h.ctx.2.1

/-- The root is a location of every non-empty context. -/
theorem root_mem_ctx {f : Frame Word Key} {hole : Word} {n : Int}
    (h : CtxRepr s (f :: c) hole n) : s.root ∈ ctxLocs (f :: c) := by
  induction c generalizing f hole n with
  | nil =>
      rw [show s.root = f.loc from h.2.2.2.2]
      exact mem_ctxLocs_cons.mpr (.inl rfl)
  | cons g c ih => exact mem_ctxLocs_cons.mpr (.inr (.inr (ih h.2.2.2.2)))

theorem root_eq_iff (h : Zip s c t) (ht : t ≠ .nil) : ptr s.nil t = s.root ↔ c = [] := by
  cases c with
  | nil => exact ⟨fun _ => rfl, fun _ => (show s.root = ptr s.nil t from h.ctx).symm⟩
  | cons f c =>
      refine ⟨fun e => ?_, fun e => by cases e⟩
      obtain ⟨a, b, k, l, r, rfl⟩ : ∃ a b k l r, t = .node a b k l r := by
        cases t with
        | nil => exact absurd rfl ht
        | node a b k l r => exact ⟨a, b, k, l, r, rfl⟩
      have hmem : a ∈ ctxLocs (f :: c) := by
        rw [show a = s.root from e]
        exact root_mem_ctx h.ctx
      exact absurd hmem (h.disjoint ((mem_locs_mk (d := false)).mpr (.inl rfl)))

/-- `get_ref` of the node in focus is the reference that holds it. -/
theorem getRef (h : Zip s c (.mk d a b k x y)) : s.getRef a = refOf c := by
  have hne : RbTree.mk d a b k x y ≠ .nil := by cases d <;> simp [RbTree.mk]
  have hroot := h.root_eq_iff hne
  rw [ptr_mk] at hroot
  cases c with
  | nil => rw [State.getRef, if_pos (hroot.mpr rfl), refOf]
  | cons f c =>
      have hpar : (s.mem a).getPar = f.loc := (repr_mk.mp h.focus).1.par
      obtain ⟨-, hd, hd', hsib, -⟩ := h.ctx
      rw [ptr_mk] at hd
      have hother : ptr s.nil f.sib ≠ a := by
        intro e
        cases hs : f.sib with
        | nil =>
            rw [hs, ptr_nil] at e
            exact (repr_mk.mp h.focus).1.ne_nil e.symm
        | node a' b' k' l r =>
            rw [hs] at e
            have hmem : a' ∈ f.sib.locs := by
              rw [hs]
              exact (mem_locs_mk (d := false)).mpr (.inl rfl)
            rw [show a' = a from e] at hmem
            exact h.root_notMem_ctx (mem_ctxLocs_cons.mpr (.inr (.inl hmem)))
      have hnr : ¬ a = s.root := fun e => by cases hroot.mp e
      rw [State.getRef, if_neg hnr, hpar, refOf]
      cases hdir : f.dir with
      | true =>
          rw [hdir] at hd
          simp [hd]
      | false =>
          rw [hdir, Bool.not_false] at hd'
          simp [hd', hother]

/-! ## Updating the node in focus -/

/-- An update that changes only the colour and the key of the node in focus. -/
theorem modifyRoot (h : Zip s c (.mk d a b k x y)) {f : Node Key → Node Key} (b' : Bool)
    (k' : Key) (hpar : (f (s.mem a)).getPar = (s.mem a).getPar)
    (hblack : (f (s.mem a)).isBlack = b') (hkey : (f (s.mem a)).key = k')
    (hch : (f (s.mem a)).ch = (s.mem a).ch) (hsize : (f (s.mem a)).size = (s.mem a).size) :
    Zip (s.modify a f) c (.mk d a b' k' x y) := by
  obtain ⟨hax, hay, -, -, -⟩ := h.mk_nodup
  have hac := h.root_notMem_ctx
  obtain ⟨hn, hd, hd', hx, hy⟩ := repr_mk.mp h.focus
  have hnil : s.nil ≠ a := hn.ne_nil.symm
  refine ⟨⟨h.sentinel.even, h.sentinel.ne_null, ?_, ?_, ?_⟩, ?_, ?_, ?_⟩
  · rw [State.nil_modify, State.mem_modify_ne s f hnil, h.sentinel.black]
  · intro i
    rw [State.nil_modify, State.mem_modify_ne s f hnil, h.sentinel.ch]
  · rw [State.nil_modify, State.mem_modify_ne s f hnil, h.sentinel.size]
  · have hc := h.ctx
    rw [ptr_mk, RbTree.count_mk] at hc ⊢
    exact hc.congr rfl rfl fun q hq => State.mem_modify_ne s f (fun e => hac (e ▸ hq))
  · rw [repr_mk]
    refine ⟨⟨hn.ne_nil, hn.ne_null, hn.even, ?_, ?_, ?_, ?_⟩, ?_, ?_, ?_, ?_⟩
    · rw [State.mem_modify_same, hpar, hn.par, State.nil_modify]
    · rw [State.mem_modify_same, hblack]
    · rw [State.mem_modify_same, hkey]
    · rw [State.mem_modify_same, hsize, hn.size]
    · rw [State.mem_modify_same, hch, hd, State.nil_modify]
    · rw [State.mem_modify_same, hch, hd', State.nil_modify]
    · exact hx.congr rfl fun q hq => State.mem_modify_ne s f (fun e => hax (e ▸ hq))
    · exact hy.congr rfl fun q hq => State.mem_modify_ne s f (fun e => hay (e ▸ hq))
  · have hlocs : (plug c (RbTree.mk d a b' k' x y)).locs = (plug c (RbTree.mk d a b k x y)).locs := by
      simp only [RbTree.locs, entries_plug, List.map_append]
      cases d <;> simp [RbTree.mk]
    rw [hlocs]
    exact h.nodup

theorem setBlack (h : Zip s c (.mk d a b k x y)) :
    Zip (s.modify a Node.setBlack) c (.mk d a true k x y) :=
  h.modifyRoot _ _ (by simp) (by simp) (repr_mk.mp h.focus).1.key (by simp) (by simp)

theorem setRed (h : Zip s c (.mk d a b k x y)) :
    Zip (s.modify a Node.setRed) c (.mk d a false k x y) :=
  h.modifyRoot _ _ (by simp) (by simp) (repr_mk.mp h.focus).1.key (by simp) (by simp)

/-! ## Rotation -/

/-- `rotate` on the reference that holds the node in focus lifts its child on the
side opposite to `d`, keeps all colours and recomputes the two sizes. -/
theorem rotate {ba bb : Bool} {b' : Word} {ka kb : Key} {x y z : RbTree Word Key}
    (h : Zip s c (.mk d a ba ka x (.mk d b' bb kb y z))) :
    Zip (s.rotate (refOf c) d) c (.mk d b' bb kb (.mk d a ba ka x y) z) ∧
      (s.rotate (refOf c) d).nil = s.nil ∧
      (s.rotate (refOf c) d).trace = .rotate a b' :: s.trace := by
  obtain ⟨hax, hab, hxnd, -, hxy⟩ := h.mk_nodup
  obtain ⟨hby, hbz, hynd, hznd, hyz⟩ := h.into'.mk_nodup
  have hac := h.root_notMem_ctx
  obtain ⟨hna, hda, hda', hx, hnode⟩ := repr_mk.mp h.focus
  obtain ⟨hnb, hdb, hdb', hy, hz⟩ := repr_mk.mp hnode
  rw [ptr_mk] at hda'
  have hne : a ≠ b' := fun e => hab (mem_locs_mk.mpr (.inl e))
  have hay : a ∉ y.locs := fun hq => hab (mem_locs_mk.mpr (.inr (.inl hq)))
  have haz : a ∉ z.locs := fun hq => hab (mem_locs_mk.mpr (.inr (.inr hq)))
  have hxb : b' ∉ x.locs := fun hq => hxy b' hq (mem_locs_mk.mpr (.inl rfl))
  have hbc : b' ∉ ctxLocs c :=
    h.disjoint (mem_locs_mk.mpr (.inr (.inr (mem_locs_mk.mpr (.inl rfl)))))
  have hxc : ∀ q ∈ x.locs, q ∉ ctxLocs c := fun q hq =>
    h.disjoint (mem_locs_mk.mpr (.inr (.inl hq)))
  have hyc : ∀ q ∈ y.locs, q ∉ ctxLocs c := fun q hq =>
    h.disjoint (mem_locs_mk.mpr (.inr (.inr (mem_locs_mk.mpr (.inr (.inl hq))))))
  have hzc : ∀ q ∈ z.locs, q ∉ ctxLocs c := fun q hq =>
    h.disjoint (mem_locs_mk.mpr (.inr (.inr (mem_locs_mk.mpr (.inr (.inr hq))))))
  have hxy' : ∀ q ∈ x.locs, q ∉ y.locs := fun q hq hqy =>
    hxy q hq (mem_locs_mk.mpr (.inr (.inl hqy)))
  have hslot : ∀ p i, refOf c = .child p i → p ∈ ctxLocs c := by
    intro p i e
    cases c with
    | nil => cases e
    | cons f c =>
        cases e
        exact mem_ctxLocs_cons.mpr (.inl rfl)
  have hslotne : ∀ q, q ∉ ctxLocs c → ∀ p i, refOf c = .child p i → q ≠ p :=
    fun q hq p i e eq => hq (eq ▸ hslot p i e)
  have R : State.Rotated s (s.rotate (refOf c) d) (refOf c) d a b' (ptr s.nil y) := by
    apply State.rotate_rotated s (by rw [h.deref, ptr_mk]) hda' hdb
    · rw [hda]
      exact ptr_ne hna.ne_nil hax
    · rw [hda]
      exact ptr_ne hnb.ne_nil hxb
    · exact hne
    · exact (ptr_ne hna.ne_nil hay).symm
    · exact (ptr_ne hnb.ne_nil hby).symm
    · intro p i e
      have hp := hslot p i e
      exact ⟨fun eq => hac (eq ▸ hp), fun eq => hbc (eq ▸ hp),
        (ptr_ne (h.ctx.nodeIs hp).1 (fun hq => hyc p hq hp)).symm⟩
  -- every node outside the rotation keeps its contents
  have keep : ∀ q, q ≠ s.nil → q ≠ a → q ≠ b' → q ∉ y.locs → q ∉ ctxLocs c →
      (s.rotate (refOf c) d).mem q = s.mem q := fun q hqn hqa hqb hqy hqc =>
    R.other q hqa hqb (ptr_ne hqn hqy).symm (hslotne q hqc)
  have hsize : (s.mem ((s.mem a).ch d)).size + (s.mem (ptr s.nil y)).size + 1 =
      (x.count : Int) + y.count + 1 := by
    rw [hda, hx.size_ptr h.sentinel, hy.size_ptr h.sentinel]
  refine ⟨⟨?_, ?_, ?_, ?_⟩, R.nil, R.trace⟩
  · have hsent : ((s.rotate (refOf c) d).mem s.nil).isBlack = (s.mem s.nil).isBlack ∧
        ((s.rotate (refOf c) d).mem s.nil).ch = (s.mem s.nil).ch ∧
        ((s.rotate (refOf c) d).mem s.nil).size = (s.mem s.nil).size := by
      by_cases hm : s.nil = ptr s.nil y
      · have hmoved := R.moved
        rw [← hm] at hmoved
        rw [hmoved]
        exact ⟨Node.isBlack_setPar _ hna.even, rfl, rfl⟩
      · have hother : (s.rotate (refOf c) d).mem s.nil = s.mem s.nil := by
          refine R.other _ hna.ne_nil.symm hnb.ne_nil.symm hm fun p i e => ?_
          exact (h.ctx.nodeIs (hslot p i e)).1.symm
        rw [hother]
        exact ⟨rfl, rfl, rfl⟩
    refine ⟨?_, ?_, ?_, ?_, ?_⟩ <;> rw [R.nil]
    · exact h.sentinel.even
    · exact h.sentinel.ne_null
    · rw [hsent.1, h.sentinel.black]
    · intro i
      rw [hsent.2.1, h.sentinel.ch]
    · rw [hsent.2.2, h.sentinel.size]
  · have hctx := h.ctx
    rw [ptr_mk] at hctx ⊢
    have hcount : (RbTree.mk d b' bb kb (RbTree.mk d a ba ka x y) z).count =
        (RbTree.mk d a ba ka x (RbTree.mk d b' bb kb y z)).count := by
      simp only [RbTree.count, RbTree.entries_rotate]
    rw [hcount]
    refine hctx.assign h.ctx_nodup R.nil ?_ ?_ ?_
    · rw [R.root]
      cases c <;> simp [refOf]
    · rintro f c' rfl
      exact R.slot _ _ rfl
    · intro q hq hqp
      refine R.other q (fun e => hac (e ▸ hq)) (fun e => hbc (e ▸ hq))
        (ptr_ne (h.ctx.nodeIs hq).1 (fun hqy => hyc q hqy hq)).symm ?_
      intro p i e
      cases c with
      | nil => cases e
      | cons f c =>
          cases e
          exact hqp
  · rw [repr_mk, repr_mk, R.nil, RbTree.count_mk]
    refine ⟨⟨?_, hnb.ne_null, hnb.even, ?_, ?_, ?_, ?_⟩, ?_, ?_,
      ⟨⟨?_, hna.ne_null, hna.even, ?_, ?_, ?_, ?_⟩, ?_, ?_, ?_, ?_⟩, ?_⟩
    · rw [R.nil]
      exact hnb.ne_nil
    · rw [R.lifted, Node.getPar_setSize, Node.getPar_setCh, Node.getPar_copyPar, hna.par]
    · rw [R.lifted, Node.isBlack_setSize, Node.isBlack_setCh, Node.isBlack_copyPar, hnb.black]
    · rw [R.lifted, Node.key_setSize, Node.key_setCh, Node.key_copyPar, hnb.key]
    · rw [R.lifted, Node.size_setSize, hna.size, RbTree.count_mk]
      push_cast
      omega
    · rw [R.lifted, Node.ch_setSize, Node.ch_setCh_same, ptr_mk]
    · rw [R.lifted, Node.ch_setSize, Node.ch_setCh_not, Node.ch_copyPar, hdb']
    · rw [R.nil]
      exact hna.ne_nil
    · rw [R.lowered, Node.getPar_setSize, Node.getPar_setPar _ hnb.even]
    · rw [R.lowered, Node.isBlack_setSize, Node.isBlack_setPar _ hnb.even,
        Node.isBlack_setCh, hna.black]
    · rw [R.lowered, Node.key_setSize, Node.key_setPar, Node.key_setCh, hna.key]
    · rw [R.lowered, Node.size_setSize, hsize]
    · rw [R.lowered, Node.ch_setSize, Node.ch_setPar, Node.ch_setCh_not', hda]
    · rw [R.lowered, Node.ch_setSize, Node.ch_setPar, Node.ch_setCh_same]
    · refine hx.congr R.nil fun q hq => keep q (hx.nodeIs hq).1 ?_ ?_ (hxy' q hq) (hxc q hq)
      · exact fun e => hax (e ▸ hq)
      · exact fun e => hxb (e ▸ hq)
    · refine hy.reparent hynd R.nil (fun _ => ?_) fun q hq hqp => ?_
      · rw [R.moved]
        exact ⟨Node.getPar_setPar _ hna.even, Node.isBlack_setPar _ hna.even, rfl, rfl, rfl⟩
      · exact R.other q (fun e => hay (e ▸ hq)) (fun e => hby (e ▸ hq)) hqp
          (hslotne q (hyc q hq))
    · refine hz.congr R.nil fun q hq => keep q (hz.nodeIs hq).1 ?_ ?_ ?_ (hzc q hq)
      · exact fun e => haz (e ▸ hq)
      · exact fun e => hbz (e ▸ hq)
      · exact fun hqy => hyz q hqy hq
  · have hlocs : (plug c (RbTree.mk d b' bb kb (RbTree.mk d a ba ka x y) z)).locs =
        (plug c (RbTree.mk d a ba ka x (RbTree.mk d b' bb kb y z))).locs := by
      simp only [RbTree.locs, entries_plug, RbTree.entries_rotate]
    rw [hlocs]
    exact h.nodup

/-- Ghost records do not matter to the tree. -/
theorem record (h : Zip s c t) (e : Event) : Zip (s.record e) c t :=
  ⟨⟨h.sentinel.even, h.sentinel.ne_null, h.sentinel.black, h.sentinel.ch, h.sentinel.size⟩,
    h.ctx.congr rfl rfl fun _ _ => rfl, h.focus.congr rfl fun _ _ => rfl, h.nodup⟩

/-! ## Which child a pointer is -/

theorem ptr_ne_sib {f : Frame Word Key} (h : Zip s (f :: c) t) (hne : t ≠ .nil ∨ f.sib ≠ .nil) :
    ptr s.nil t ≠ ptr s.nil f.sib := by
  have hsib : Repr s f.loc f.sib := h.ctx.2.2.2.1
  have hdisj : ∀ q ∈ f.sib.locs, q ∉ t.locs := fun q hq hqt =>
    h.disjoint hqt (mem_ctxLocs_cons.mpr (.inr (.inl hq)))
  cases hs : f.sib with
  | nil =>
      rcases hne with hne | hne
      · exact fun e => hne (h.focus.ptr_eq_nil_iff.mp e)
      · exact absurd hs hne
  | node a b k l r =>
      rw [hs] at hsib hdisj
      exact ptr_ne hsib.1.ne_nil (hdisj a ((mem_locs_mk (d := false)).mpr (.inl rfl)))

/-- Comparing the pointer in the hole with a child slot of its parent tells on
which side the hole is. -/
theorem side {f : Frame Word Key} (h : Zip s (f :: c) t) (hne : t ≠ .nil ∨ f.sib ≠ .nil)
    (i : Bool) : (ptr s.nil t == (s.mem f.loc).ch i) = (f.dir == i) := by
  obtain ⟨-, hd, hd', -, -⟩ := h.ctx
  by_cases hi : f.dir = i
  · subst hi
    simp [hd]
  · have hi' : i = !f.dir := by
      cases hf : f.dir <;> cases i <;> simp_all
    rw [hi', hd']
    simp [h.ptr_ne_sib hne]

end Zip

/-- The events recorded between two states are all harmless: no rotation touched
the sentinel and no sibling of a doubly black node was the sentinel. -/
def TraceOk (s s' : State Key) : Prop :=
  ∀ e ∈ s'.trace, e ∈ s.trace ∨
    match e with
    | .rotate root pivot => root ≠ s.nil ∧ pivot ≠ s.nil
    | .sibling q => q ≠ s.nil

theorem TraceOk.of_eq (h : s'.trace = s.trace) : TraceOk s s' := by
  intro e he
  exact .inl (h ▸ he)

theorem TraceOk.trans {s'' : State Key} (h : TraceOk s s') (hnil : s'.nil = s.nil)
    (h' : TraceOk s' s'') : TraceOk s s'' := by
  intro e he
  rcases h' e he with he | he
  · exact h e he
  · rw [hnil] at he
    exact .inr he

theorem TraceOk.rotate {a b : Word} (h : s'.trace = .rotate a b :: s.trace) (ha : a ≠ s.nil)
    (hb : b ≠ s.nil) : TraceOk s s' := by
  intro e he
  rw [h] at he
  rcases List.mem_cons.mp he with rfl | he
  · exact .inr ⟨ha, hb⟩
  · exact .inl he

theorem TraceOk.sibling {q : Word} (hq : q ≠ s.nil) : TraceOk s (s.record (.sibling q)) := by
  intro e he
  rcases List.mem_cons.mp he with rfl | he
  · exact .inr hq
  · exact .inl he

end Jkos.Rbt
