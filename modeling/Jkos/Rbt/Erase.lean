import Jkos.Rbt.Insert

/-!
# `erase` keeps the red-black tree and removes one key

`remove_bottom` unlinks a node with at most one child and then moves a doubly
black focus upwards. The focus may be the sentinel, whose parent field the loop
navigates by: that field is part of the loop invariant, and every rotation that
overwrites it happens after its last use in that turn.
-/

namespace Jkos.Rbt

open RedBlack

universe u

variable {Key : Type u} {s s' : State Key} {c : Ctx Word Key} {t : RbTree Word Key}

/-! ## The turns of the fix-up loop -/

namespace State

/-- The first conditional of a turn: a red sibling is rotated above the parent. -/
def liftRedSibling (s : State Key) (p sib : Word) : State Key × Word :=
  if (s.mem sib).isRed then
    let s := s.modify p Node.setRed
    let s := s.modify sib Node.setBlack
    let d := sib == (s.mem p).ch false
    let s := s.rotate (s.getRef p) d
    (s, (s.mem p).ch (!d))
  else (s, sib)

/-- The second conditional of a turn: a red near nephew is rotated outwards. -/
def turnNephew (s : State Key) (p sib : Word) (dir : Bool) : State Key × Word :=
  if (s.mem ((s.mem sib).ch (!dir))).isBlack then
    let s := s.modify ((s.mem sib).ch dir) Node.setBlack
    let s := s.modify sib Node.setRed
    let s := s.rotate (.child p (sib == (s.mem p).ch true)) (!dir)
    (s, (s.mem p).ch (!dir))
  else (s, sib)

/-- The last turn: the sibling takes the place and colour of the parent. -/
def liftSibling (s : State Key) (p sib : Word) (dir : Bool) : State Key :=
  let s := s.modify sib (·.copyColor (s.mem p))
  let s := s.modify p Node.setBlack
  let s := s.modify ((s.mem sib).ch (!dir)) Node.setBlack
  s.rotate (s.getRef p) dir

/-- A turn once the sibling is black. -/
def removeTail (fuel : Nat) (s : State Key) (n p sib : Word) : Option (State Key) :=
  if (s.mem ((s.mem sib).ch false)).isBlack ∧ (s.mem ((s.mem sib).ch true)).isBlack then
    removeFix fuel (s.modify sib Node.setRed) p
  else
    let r := s.turnNephew p sib (n == (s.mem p).ch true)
    some (r.1.liftSibling p r.2 (n == (s.mem p).ch true))

theorem removeFix_succ (s : State Key) (fuel : Nat) (n : Word) :
    s.removeFix (fuel + 1) n =
      if n ≠ s.root ∧ (s.mem n).isBlack then
        let p := (s.mem n).getPar
        let sib := (s.mem p).ch (n == (s.mem p).ch false)
        let r := (s.record (.sibling sib)).liftRedSibling p sib
        removeTail fuel (r.1.record (.sibling r.2)) n p r.2
      else some (s.modify n Node.setBlack) := rfl

end State

section Turns

variable {d : Bool} {p q : Word} {pb qb : Bool} {pk qk : Key} {x y z : RbTree Word Key}

theorem Zip.sibling_side (h : Zip s c (.mk d p pb pk x (.mk d q qb qk y z))) (i : Bool) :
    (q == (s.mem p).ch i) = ((!d) == i) := by
  have side := h.into'.side (.inl (RbTree.mk_ne_nil _ _ _ _ _ _)) i
  rwa [ptr_mk] at side

theorem Zip.liftRedSibling (h : Zip s c (.mk d p pb pk x (.mk d q false qk y z))) :
    ∃ s', s.liftRedSibling p q = (s', ptr s.nil y) ∧
      Zip s' c (.mk d q true qk (.mk d p false pk x y) z) ∧ s'.nil = s.nil ∧ TraceOk s s' := by
  have hq := (repr_mk.mp h.into'.focus).1
  have h₁ := h.setRed.into'.setBlack.up
  rw [Frame.plug, RbTree.mk_not] at h₁
  have hside := h₁.sibling_side false
  obtain ⟨h₂, hnil, htrace⟩ := h₁.rotate
  refine ⟨_, ?_, h₂, hnil, TraceOk.rotate htrace (repr_mk.mp h.focus).1.ne_nil hq.ne_nil⟩
  have hnear := (repr_mk.mp (repr_mk.mp h₂.focus).2.2.2.1).2.2.1
  rw [hnil] at hnear
  have hd : (q == (((s.modify p Node.setRed).modify q Node.setBlack).mem p).ch false) = d := by
    rw [hside]
    cases d <;> rfl
  have hred : (s.mem q).isRed = true := by
    rw [Node.isRed_eq, hq.black]
    rfl
  rw [State.liftRedSibling, if_pos hred]
  simp only [hd, h₁.getRef]
  rw [hnear]
  rfl

theorem Zip.turnNephew {m : Word} {mk : Key} {y₁ y₂ : RbTree Word Key}
    (h : Zip s c (.mk d p pb pk x (.mk d q qb qk (.mk d m false mk y₁ y₂) z)))
    (hz : z.isBlack = true) :
    ∃ s', s.turnNephew p q d = (s', m) ∧
      Zip s' c (.mk d p pb pk x (.mk d m true mk y₁ (.mk d q false qk y₂ z))) ∧
      s'.nil = s.nil ∧ TraceOk s s' := by
  have hq := repr_mk.mp h.into'.focus
  have h₁ := h.into'.into.setBlack.up.setRed
  have hside := h₁.up
  rw [Frame.plug, RbTree.mk_not] at hside
  have hidx := hside.sibling_side true
  rw [← RbTree.mk_not, ← RbTree.mk_not d m] at h₁
  obtain ⟨h₂, hnil, htrace⟩ := h₁.rotate
  have h₃ := h₂.up
  rw [Frame.plug, RbTree.mk_not, RbTree.mk_not, RbTree.mk_not] at h₃
  have hm := (repr_mk.mp h.into'.into.focus).1
  refine ⟨_, ?_, h₃, hnil, TraceOk.rotate htrace hq.1.ne_nil hm.ne_nil⟩
  have hnear : (s.mem q).ch d = m := by rw [hq.2.1, ptr_mk]
  have hblack : (s.mem ((s.mem q).ch (!d))).isBlack = true := by
    rw [hq.2.2.1, hq.2.2.2.2.isBlack_ptr h.sentinel, hz]
  have hsib := (repr_mk.mp h₃.focus).2.2.1
  rw [ptr_mk] at hsib
  have hd : (q == (((s.modify m Node.setBlack).modify q Node.setRed).mem p).ch true) = !d := by
    rw [hidx]
    cases d <;> rfl
  rw [State.turnNephew, if_pos hblack]
  simp only [hnear, hd]
  exact congrArg (Prod.mk _) hsib

theorem Zip.liftSibling {m : Word} {mk : Key} {z₁ z₂ : RbTree Word Key}
    (h : Zip s c (.mk d p pb pk x (.mk d q qb qk y (.mk d m false mk z₁ z₂)))) :
    Zip (s.liftSibling p q d) c
        (.mk d q pb qk (.mk d p true pk x y) (.mk d m true mk z₁ z₂)) ∧
      (s.liftSibling p q d).nil = s.nil ∧ TraceOk s (s.liftSibling p q d) := by
  have hp := (repr_mk.mp h.focus).1
  have hq := repr_mk.mp h.into'.focus
  have hne : p ≠ q := fun e => h.mk_nodup.2.1 (mem_locs_mk.mpr (.inl e))
  have h₁ : Zip (s.modify q (·.copyColor (s.mem p))) c
      (.mk d p pb pk x (.mk d q pb qk y (.mk d m false mk z₁ z₂))) := by
    have hcopy := (h.into'.modifyRoot (f := (·.copyColor (s.mem p))) pb qk
      (by simp) (by simp [hp.black]) (by simp [hq.1.key]) (by simp) (by simp)).up
    rwa [Frame.plug, RbTree.mk_not] at hcopy
  have h₂ := h₁.setBlack
  have hfar : (((s.modify q (·.copyColor (s.mem p))).modify p Node.setBlack).mem q).ch (!d) = m := by
    rw [(repr_mk.mp h₂.into'.focus).2.2.1, ptr_mk]
  have h₃ := h₂.into'.into'.setBlack.up.up
  simp only [Frame.plug, RbTree.mk_not] at h₃
  obtain ⟨h₄, hnil, htrace⟩ := h₃.rotate
  have heq : s.liftSibling p q d =
      (((s.modify q (·.copyColor (s.mem p))).modify p Node.setBlack).modify m
        Node.setBlack).rotate (refOf c) d := by
    rw [← h₃.getRef]
    simp only [State.liftSibling, hfar]
  rw [heq]
  exact ⟨h₄, hnil, TraceOk.rotate htrace hp.ne_nil hq.1.ne_nil⟩

end Turns

/-! ## The fix-up loop -/

/-- A subtree one black node short of height `n + 1`. A red one only needs its
root painted black, which also repairs a red child. -/
def Deficient (t : RbTree Word Key) (n : Nat) : Prop :=
  (t.isBlack = true ∧ t.Balanced n) ∨ (t.isBlack = false ∧ (t.paint true).Balanced (n + 1))

/-- The turns the loop may still take. A red sibling deepens the context by one,
but then the parent is red and the next turn is the last. -/
def turns (c : Ctx Word Key) (black : Bool) : Nat := c.length + if black then 1 else 0

/-- The loop specification for a given number of turns. -/
def RemoveFixSpec (Key : Type u) (fuel : Nat) : Prop :=
  ∀ {s : State Key} {c : Ctx Word Key} {t : RbTree Word Key} {n : Nat}, Zip s c t →
    (s.mem (ptr s.nil t)).getPar = parent s.nil c → CtxBalanced c (n + 1) → Deficient t n →
    turns c t.isBlack < fuel →
    ∃ s', s.removeFix fuel (ptr s.nil t) = some s' ∧ Fixed s s' (plug c t)

/-- What remains of a context after its innermost frame `f`, at hole height `n`. -/
def Outer (black : Bool) (c : Ctx Word Key) (n : Nat) : Prop :=
  (black = true ∧ CtxBalanced c (n + 1)) ∨
    (black = false ∧ acceptsRed c = true ∧ CtxBalanced c n)

theorem Fixed.trans_entries {s'' : State Key} {t' : RbTree Word Key} (h : Fixed s' s'' t')
    (hnil : s'.nil = s.nil) (htrace : TraceOk s s') (hent : t'.entries = t.entries) :
    Fixed s s'' t := by
  obtain ⟨r, hz, hrb, he⟩ := h.tree
  exact ⟨h.nil.trans hnil, htrace.trans hnil h.trace, r, hz, hrb, he.trans hent⟩

theorem removeTail_spec {fuel n : Nat} (ih : RemoveFixSpec Key fuel) {d : Bool} {p q : Word}
    {pb : Bool} {pk qk : Key} {y z : RbTree Word Key}
    (h : Zip s c (.mk d p pb pk t (.mk d q true qk y z))) (hout : Outer pb c (n + 1))
    (ht : t.Balanced n) (hy : y.Balanced n) (hz : z.Balanced n)
    (hfuel : turns c pb < fuel) :
    ∃ s', s.removeTail fuel (ptr s.nil t) p q = some s' ∧
      Fixed s s' (plug c (.mk d p pb pk t (.mk d q true qk y z))) := by
  have hq := repr_mk.mp h.into'.focus
  have hyb := hq.2.2.2.1.isBlack_ptr h.sentinel
  have hzb := hq.2.2.2.2.isBlack_ptr h.sentinel
  have hboth : ((s.mem ((s.mem q).ch false)).isBlack = true ∧
      (s.mem ((s.mem q).ch true)).isBlack = true) ↔ (y.isBlack = true ∧ z.isBlack = true) := by
    rw [← hyb, ← hzb, ← hq.2.1, ← hq.2.2.1]
    cases d
    · rfl
    · exact and_comm
  have hdir : (ptr s.nil t == (s.mem p).ch true) = d := by
    rw [h.into.side (.inr (RbTree.mk_ne_nil _ _ _ _ _ _)) true]
    cases d <;> rfl
  rw [State.removeTail]
  by_cases hbb : y.isBlack = true ∧ z.isBlack = true
  · rw [if_pos (hboth.mpr hbb)]
    have h₁ := h.into'.setRed.up
    rw [Frame.plug, RbTree.mk_not] at h₁
    have hsib : (RbTree.mk d q false qk y z).Balanced n := by
      rw [RbTree.balanced_red_iff]
      exact ⟨hbb, hy, hz⟩
    have hpar : ((s.modify q Node.setRed).mem p).getPar = parent s.nil c :=
      (repr_mk.mp h₁.focus).1.par
    have next : ∃ m, CtxBalanced c (m + 1) ∧
        Deficient (.mk d p pb pk t (.mk d q false qk y z)) m := by
      rcases hout with ⟨rfl, hc⟩ | ⟨rfl, -, hc⟩
      · refine ⟨n + 1, hc, .inl ⟨RbTree.isBlack_mk .., ?_⟩⟩
        rw [RbTree.balanced_black_iff]
        exact ⟨n, rfl, ht, hsib⟩
      · refine ⟨n, hc, .inr ⟨RbTree.isBlack_mk .., ?_⟩⟩
        rw [RbTree.paint_mk, RbTree.balanced_black_iff]
        exact ⟨n, rfl, ht, hsib⟩
    obtain ⟨m, hc, hdef⟩ := next
    obtain ⟨s', he, hfix⟩ := ih h₁ (by rw [ptr_mk]; exact hpar) hc hdef
      (by rw [RbTree.isBlack_mk]; exact hfuel)
    rw [ptr_mk] at he
    refine ⟨s', he, hfix.trans_entries rfl (TraceOk.of_eq rfl) (entries_plug_congr c ?_)⟩
    exact RbTree.entries_mk_congr _ _ _ _ _ rfl (RbTree.entries_mk_congr _ _ _ _ _ rfl rfl)
  · rw [if_neg (fun hb => hbb (hboth.mp hb))]
    simp only [hdir]
    -- the last rotation, for a sibling whose far child is red
    have final : ∀ {s₁ : State Key} {q' : Word} {qb : Bool} {qk' : Key} {y' z' : RbTree Word Key},
        Zip s₁ c (.mk d p pb pk t (.mk d q' qb qk' y' z')) → y'.Balanced n → z'.Balanced n →
        z'.isBlack = false → Fixed s₁ (s₁.liftSibling p q' d)
          (plug c (.mk d p pb pk t (.mk d q' qb qk' y' z'))) := by
      intro s₁ q' qb qk' y' z' h₁ hy' hz' hred
      obtain rfl | ⟨m, mb, mk, z₁, z₂, rfl⟩ := RbTree.eq_nil_or_mk d z'
      · cases hred
      · rw [RbTree.isBlack_mk] at hred
        subst hred
        obtain ⟨h₂, hnil, htrace⟩ := h₁.liftSibling
        have hfar := hz'.paint_black (RbTree.isBlack_mk ..)
        rw [RbTree.paint_mk] at hfar
        have hnear : (RbTree.mk d p true pk t y').Balanced (n + 1) := by
          rw [RbTree.balanced_black_iff]
          exact ⟨n, rfl, ht, hy'⟩
        refine ⟨hnil, htrace, _, h₂.plugged, ?_, entries_plug_congr c ?_⟩
        · rcases hout with ⟨rfl, hc⟩ | ⟨rfl, hacc, hc⟩
          · refine hc.plug ?_ (.inl (RbTree.isBlack_mk ..))
            rw [RbTree.balanced_black_iff]
            exact ⟨n + 1, rfl, hnear, hfar⟩
          · refine hc.plug ?_ (.inr hacc)
            rw [RbTree.balanced_red_iff]
            exact ⟨⟨RbTree.isBlack_mk .., RbTree.isBlack_mk ..⟩, hnear, hfar⟩
        · exact (RbTree.entries_mk_congr _ _ _ _ _ (RbTree.entries_mk_congr _ _ _ _ _ rfl rfl)
            (RbTree.entries_mk_congr _ _ _ _ _ rfl rfl)).trans (RbTree.entries_rotate ..)
    cases hzc : z.isBlack with
    | false =>
        have hturn : s.turnNephew p q d = (s, q) := by
          rw [State.turnNephew, if_neg]
          rw [hq.2.2.1, hzb, hzc]
          decide
        rw [hturn]
        exact ⟨_, rfl, final h hy hz hzc⟩
    | true =>
        have hyc : y.isBlack = false := by
          cases hyc : y.isBlack
          · rfl
          · exact absurd ⟨hyc, hzc⟩ hbb
        obtain rfl | ⟨m, mb, mk, y₁, y₂, rfl⟩ := RbTree.eq_nil_or_mk d y
        · cases hyc
        · rw [RbTree.isBlack_mk] at hyc
          subst hyc
          obtain ⟨s₁, he, h₁, hnil, htrace⟩ := h.turnNephew hzc
          rw [RbTree.balanced_red_iff] at hy
          obtain ⟨⟨-, hy₂b⟩, hy₁, hy₂⟩ := hy
          have hfar : (RbTree.mk d q false qk y₂ z).Balanced n := by
            rw [RbTree.balanced_red_iff]
            exact ⟨⟨hy₂b, hzc⟩, hy₂, hz⟩
          rw [he]
          refine ⟨_, rfl, (final h₁ hy₁ hfar (RbTree.isBlack_mk ..)).trans_entries hnil htrace
            (entries_plug_congr c ?_)⟩
          refine RbTree.entries_mk_congr _ _ _ _ _ rfl ?_
          refine (RbTree.entries_rotate d m q true false mk qk y₁ y₂ z).symm.trans ?_
          exact RbTree.entries_mk_congr _ _ _ _ _ (RbTree.entries_mk_congr _ _ _ _ _ rfl rfl) rfl

/-- Painting the focus black, also when it is the sentinel. -/
theorem Zip.setBlack_ptr (h : Zip s c t) :
    Zip (s.modify (ptr s.nil t) Node.setBlack) c (t.paint true) := by
  obtain rfl | ⟨a, b, k, x, y, rfl⟩ := RbTree.eq_nil_or_mk false t
  · have hs := h.sentinel
    refine ⟨⟨hs.even, hs.ne_null, ?_, ?_, ?_⟩, ?_, trivial, h.nodup⟩
    · rw [State.nil_modify, ptr_nil, State.mem_modify_same, Node.isBlack_setBlack]
    · intro i
      rw [State.nil_modify, ptr_nil, State.mem_modify_same, Node.ch_setBlack, hs.ch]
    · rw [State.nil_modify, ptr_nil, State.mem_modify_same, Node.size_setBlack, hs.size]
    · exact h.ctx.congr rfl rfl fun q hq =>
        State.mem_modify_ne s _ (h.ctx.nodeIs hq).1
  · rw [ptr_mk, RbTree.paint_mk]
    exact h.setBlack

/-- Leaving the loop: the focus is the root or red, and is painted black. -/
theorem Zip.leave {n : Nat} (h : Zip s c t) (hc : CtxBalanced c n)
    (ht : (t.paint true).Balanced n) :
    Fixed s (s.modify (ptr s.nil t) Node.setBlack) (plug c t) :=
  ⟨rfl, TraceOk.of_eq rfl, _, h.setBlack_ptr.plugged,
    hc.plug ht (.inl (RbTree.isBlack_paint t)), entries_plug_congr c (RbTree.entries_paint true t)⟩

theorem Zip.ptr_ne_root {f : Frame Word Key} (h : Zip s (f :: c) t) : ptr s.nil t ≠ s.root := by
  intro e
  by_cases ht : t = .nil
  · subst ht
    exact (h.ctx.nodeIs (Zip.root_mem_ctx h.ctx)).1 e.symm
  · exact absurd ((h.root_eq_iff ht).mp e) (by simp)

/-- A turn at a doubly black focus below a parent. -/
theorem removeTurn_spec {fuel n : Nat} (ih : RemoveFixSpec Key fuel) {f : Frame Word Key}
    (h : Zip s (f :: c) t) (hpar : (s.mem (ptr s.nil t)).getPar = f.loc)
    (hc : CtxBalanced (f :: c) (n + 1)) (ht : t.Balanced n) (hblack : t.isBlack = true)
    (hfuel : c.length + 1 < fuel) :
    ∃ s', s.removeFix (fuel + 1) (ptr s.nil t) = some s' ∧ Fixed s s' (plug (f :: c) t) := by
  obtain ⟨q, qb, qk, y, z, hsib⟩ := hc.1.exists_mk f.dir
  have hne : f.sib ≠ .nil := by
    rw [hsib]
    exact RbTree.mk_ne_nil _ _ _ _ _ _
  have hside : (ptr s.nil t == (s.mem f.loc).ch false) = !f.dir := by
    rw [h.side (.inr hne) false]
    cases f.dir <;> rfl
  have hq : (s.mem f.loc).ch (!f.dir) = q := by
    rw [h.ctx.2.2.1, hsib, ptr_mk]
  have hqn : q ≠ s.nil := by
    have hrep := h.ctx.2.2.2.1
    rw [hsib] at hrep
    exact (repr_mk.mp hrep).1.ne_nil
  have hfocus := h.focus.isBlack_ptr h.sentinel
  rw [State.removeFix_succ, if_pos ⟨h.ptr_ne_root, by rw [hfocus, hblack]⟩]
  simp only [hpar, hside, hq]
  have hz := (h.up).record (.sibling q)
  have hplug : plug (f :: c) t = plug c (.mk f.dir f.loc f.black f.key t f.sib) := rfl
  rw [hplug, hsib]
  rw [Frame.plug, hsib] at hz
  obtain ⟨hbal, hframe⟩ := hc
  rw [hsib] at hbal hframe
  rw [RbTree.isBlack_mk] at hframe
  have hrep := (repr_mk.mp hz.into'.focus).1
  have hok : TraceOk s (s.record (.sibling q)) := TraceOk.sibling hqn
  cases qb with
  | true =>
      have hlift : (s.record (.sibling q)).liftRedSibling f.loc q = (s.record (.sibling q), q) := by
        rw [State.liftRedSibling, if_neg]
        rw [Node.isRed_eq, hrep.black]
        decide
      rw [hlift]
      rw [RbTree.balanced_black_iff] at hbal
      obtain ⟨m, hm, hy, hz'⟩ := hbal
      cases hm
      have hout : Outer f.black c (n + 1) := by
        rcases hframe with ⟨hb, hc⟩ | ⟨hr, -, hacc, hc⟩
        · exact .inl ⟨hb, hc⟩
        · exact .inr ⟨hr, hacc, hc⟩
      have hturns : turns c f.black < fuel := by
        unfold turns
        split <;> omega
      obtain ⟨s', he, hfix⟩ := removeTail_spec ih (hz.record (.sibling q)) hout ht hy hz' hturns
      exact ⟨s', he, hfix.trans_entries rfl (hok.trans rfl (TraceOk.sibling hqn)) rfl⟩
  | false =>
      have hfb : f.black = true ∧ CtxBalanced c (n + 1 + 1) := by
        rcases hframe with hb | ⟨-, hr, -⟩
        · exact hb
        · cases hr
      rw [RbTree.balanced_red_iff] at hbal
      obtain ⟨⟨hyb, hzb⟩, hy, hz'⟩ := hbal
      obtain ⟨s₁, hlift, h₁, hnil, htrace⟩ := hz.liftRedSibling
      rw [hlift]
      obtain ⟨a, yb, yk, y₁, y₂, rfl⟩ := hy.exists_mk f.dir
      rw [RbTree.isBlack_mk] at hyb
      subst hyb
      rw [RbTree.balanced_black_iff] at hy
      obtain ⟨m, hm, hy₁, hy₂⟩ := hy
      cases hm
      have hout : Outer false (⟨f.dir, q, true, qk, z⟩ :: c) (n + 1) :=
        .inr ⟨rfl, rfl, hz', .inl ⟨rfl, hfb.2⟩⟩
      have hturns : turns (⟨f.dir, q, true, qk, z⟩ :: c) false < fuel := by
        simpa [turns] using hfuel
      have hins := h₁.into.record (.sibling a)
      have hptr : ptr (s₁.record (.sibling a)).nil t = ptr s.nil t := by
        rw [State.nil_record, hnil, State.nil_record]
      obtain ⟨s', he, hfix⟩ := removeTail_spec ih hins hout ht hy₁ hy₂ hturns
      rw [hptr] at he
      have hnil' : s₁.nil = s.nil := hnil
      have ha : a ≠ s₁.nil := (repr_mk.mp (repr_mk.mp h₁.into.focus).2.2.2.2).1.ne_nil
      have hok' : TraceOk s (s₁.record (.sibling a)) :=
        (hok.trans rfl htrace).trans hnil' (TraceOk.sibling ha)
      rw [ptr_mk]
      refine ⟨s', he, hfix.trans_entries hnil' hok' ?_⟩
      rw [plug_cons, Frame.plug]
      refine entries_plug_congr c ?_
      refine (RbTree.entries_rotate ..).trans ?_
      exact RbTree.entries_mk_congr _ _ _ _ _ rfl (RbTree.entries_mk_congr _ _ _ _ _ rfl rfl)

theorem removeFix_spec (Key : Type u) (fuel : Nat) : RemoveFixSpec Key fuel := by
  induction fuel with
  | zero =>
      intro s c t n _ _ _ _ hfuel
      omega
  | succ fuel ih =>
      intro s c t n h hpar hc hdef hfuel
      have hblack := h.focus.isBlack_ptr h.sentinel
      cases c with
      | nil =>
          have hroot : ptr s.nil t = s.root := (show s.root = ptr s.nil t from h.ctx).symm
          rw [State.removeFix_succ, if_neg (fun hcond => hcond.1 hroot)]
          rcases hdef with ⟨hb, ht⟩ | ⟨-, ht⟩
          · refine ⟨_, rfl, h.leave (n := n) trivial ?_⟩
            rw [RbTree.paint_of_isBlack hb]
            exact ht
          · exact ⟨_, rfl, h.leave (n := n + 1) trivial ht⟩
      | cons f c =>
          rcases hdef with ⟨hb, ht⟩ | ⟨hb, ht⟩
          · refine removeTurn_spec ih h hpar hc ht hb ?_
            simp only [turns, hb, List.length_cons, if_true] at hfuel
            omega
          · rw [State.removeFix_succ, if_neg]
            · exact ⟨_, rfl, h.leave hc ht⟩
            · rw [hblack, hb]
              simp

/-! ## Unlinking a node with at most one child -/

theorem shrink_spec (fuel : Nat) {hole : Word} {n : Int} (h : CtxRepr s c hole n)
    (hnd : (ctxLocs c).Nodup) (hfuel : c.length < fuel) :
    ∃ s', s.shrink fuel (parent s.nil c) = some s' ∧ CtxRepr s' c hole (n - 1) ∧
      s'.nil = s.nil ∧ s'.root = s.root ∧ s'.trace = s.trace ∧
      ∀ q, q ∉ ctxLocs c → s'.mem q = s.mem q := by
  induction c generalizing s hole n fuel with
  | nil =>
      cases fuel with
      | zero => omega
      | succ fuel =>
          exact ⟨s, by simp [State.shrink, parent], h, rfl, rfl, rfl, fun _ _ => rfl⟩
  | cons f c ih =>
      cases fuel with
      | zero => omega
      | succ fuel =>
          obtain ⟨hn, hd, hd', hsib, hc⟩ := h
          have hperm := (ctxLocs_cons_perm f c).nodup_iff.mp hnd
          simp only [List.nodup_cons, List.mem_append, not_or, List.nodup_append] at hperm
          obtain ⟨⟨hfs, hfc⟩, -, hcnd, hdisj⟩ := hperm
          let s₁ := s.modify f.loc (fun n => n.setSize (n.size - 1))
          have keep : ∀ q, q ≠ f.loc → s₁.mem q = s.mem q := fun q hq =>
            State.mem_modify_ne s _ hq
          have hc₁ : CtxRepr s₁ c f.loc (n + f.sib.count + 1) :=
            hc.congr rfl rfl fun q hq => keep q (fun e => hfc (e ▸ hq))
          obtain ⟨s', he, hc', hnil, hroot, htrace, hmem⟩ := ih fuel hc₁ hcnd
            (by simp only [List.length_cons] at hfuel; omega)
          have hf : s'.mem f.loc = (s.mem f.loc).setSize ((s.mem f.loc).size - 1) := by
            rw [hmem _ hfc, State.mem_modify_same]
          refine ⟨s', ?_, ⟨⟨hnil ▸ hn.ne_nil, hn.ne_null, hn.even, ?_, ?_, ?_, ?_⟩, ?_, ?_, ?_, ?_⟩,
            hnil, hroot, htrace, ?_⟩
          · have hp : (s₁.mem f.loc).getPar = parent s₁.nil c := by
              rw [State.mem_modify_same, Node.getPar_setSize, hn.par]
              rfl
            rw [parent_cons, State.shrink, if_neg hn.ne_nil]
            change s₁.shrink fuel (s₁.mem f.loc).getPar = some s'
            rw [hp, he]
          · rw [hf, Node.getPar_setSize, hn.par, hnil, State.nil_modify]
          · rw [hf, Node.isBlack_setSize, hn.black]
          · rw [hf, Node.key_setSize, hn.key]
          · rw [hf, Node.size_setSize, hn.size]
            omega
          · rw [hf, Node.ch_setSize, hd]
          · rw [hf, Node.ch_setSize, hd', hnil, State.nil_modify]
          · refine hsib.congr hnil fun q hq => ?_
            rw [hmem q (fun hqc => hdisj q hq q hqc rfl), keep q (fun e => hfs (e ▸ hq))]
          · have hsize : n - 1 + (f.sib.count : Int) + 1 = n + f.sib.count + 1 - 1 := by omega
            rw [hsize]
            exact hc'
          · intro q hq
            rw [mem_ctxLocs_cons, not_or, not_or] at hq
            rw [hmem q hq.2.2, keep q hq.1]

/-- The two stores of `remove_bottom` that replace `n` by its child `c`. -/
def State.unlink (s : State Key) (ref : Ref) (n c : Word) : State Key :=
  (s.modify c (·.copyPar (s.mem n))).assign ref c

theorem State.mem_assign_of_ne {ref : Ref} {p q : Word} (h : ∀ r i, ref = .child r i → q ≠ r) :
    (s.assign ref p).mem q = s.mem q := by
  cases ref with
  | treeRoot => rfl
  | child r i => rw [State.assign, State.mem_modify_ne s _ (h r i rfl)]

@[simp] theorem State.nil_assign (ref : Ref) (p : Word) : (s.assign ref p).nil = s.nil := by
  cases ref <;> rfl

@[simp] theorem State.trace_assign (ref : Ref) (p : Word) : (s.assign ref p).trace = s.trace := by
  cases ref <;> rfl

theorem refOf_mem {r : Word} {i : Bool} (h : refOf c = .child r i) : r ∈ ctxLocs c := by
  cases c with
  | nil => cases h
  | cons f c =>
      cases h
      exact mem_ctxLocs_cons.mpr (.inl rfl)

/-- Linking a subtree `x` into a hole whose ancestors already have its size. -/
theorem Zip.of_unlink {x : RbTree Word Key} {a : Word} {n : Int} (hs : Sentinel s)
    (hctx : CtxRepr s c a n) (hn : n = x.count) (hx : Repr s a x)
    (hpar : (s.mem a).getPar = parent s.nil c) (hnd : (plug c x).locs.Nodup) :
    Zip (s.unlink (refOf c) a (ptr s.nil x)) c x ∧
      ((s.unlink (refOf c) a (ptr s.nil x)).mem (ptr s.nil x)).getPar = parent s.nil c ∧
      ∀ q, q ∉ ctxLocs c → q ≠ ptr s.nil x →
        (s.unlink (refOf c) a (ptr s.nil x)).mem q = s.mem q := by
  have happ := List.nodup_append.mp ((locs_plug_perm c x).nodup_iff.mp hnd)
  obtain ⟨hcnd, hxnd, hdisj⟩ := happ
  have hptr : ptr s.nil x ∉ ctxLocs c := by
    intro hq
    refine ptr_ne (hctx.nodeIs hq).1 (fun hqx => hdisj _ hq _ hqx rfl) rfl
  have hslot : ∀ q, q ∉ ctxLocs c → ∀ r i, refOf c = .child r i → q ≠ r :=
    fun q hq r i e eq => hq (eq ▸ refOf_mem e)
  have hat : (s.unlink (refOf c) a (ptr s.nil x)).mem (ptr s.nil x) =
      (s.mem (ptr s.nil x)).copyPar (s.mem a) := by
    rw [State.unlink, State.mem_assign_of_ne (hslot _ hptr), State.mem_modify_same]
  have hkeep : ∀ q, q ∉ ctxLocs c → q ≠ ptr s.nil x →
      (s.unlink (refOf c) a (ptr s.nil x)).mem q = s.mem q := by
    intro q hq hqx
    rw [State.unlink, State.mem_assign_of_ne (hslot q hq), State.mem_modify_ne _ _ hqx]
  have hnil : (s.unlink (refOf c) a (ptr s.nil x)).nil = s.nil := by simp [State.unlink]
  have hsent : ((s.unlink (refOf c) a (ptr s.nil x)).mem s.nil).isBlack =
        (s.mem s.nil).isBlack ∧
      ((s.unlink (refOf c) a (ptr s.nil x)).mem s.nil).ch = (s.mem s.nil).ch ∧
      ((s.unlink (refOf c) a (ptr s.nil x)).mem s.nil).size = (s.mem s.nil).size := by
    by_cases hxn : ptr s.nil x = s.nil
    · rw [hxn] at hat ⊢
      rw [hat]
      exact ⟨Node.isBlack_copyPar .., rfl, rfl⟩
    · rw [hkeep _ (fun hq => (hctx.nodeIs hq).1 rfl) (Ne.symm hxn)]
      exact ⟨rfl, rfl, rfl⟩
  refine ⟨⟨⟨?_, ?_, ?_, ?_, ?_⟩, ?_, ?_, hnd⟩, ?_, hkeep⟩
  · rw [hnil]
    exact hs.even
  · rw [hnil]
    exact hs.ne_null
  · rw [hnil, hsent.1, hs.black]
  · intro i
    rw [hnil, hsent.2.1, hs.ch]
  · rw [hnil, hsent.2.2, hs.size]
  · rw [hnil, ← hn]
    refine hctx.assign hcnd hnil ?_ ?_ ?_
    · cases c <;> rfl
    · rintro f c' rfl
      have hf : f.loc ≠ ptr s.nil x := fun e => hptr (e ▸ mem_ctxLocs_cons.mpr (.inl rfl))
      rw [State.unlink, refOf, State.assign, State.mem_modify_same, State.mem_modify_ne _ _ hf]
    · intro q hq hqp
      have hqx : q ≠ ptr s.nil x := fun e => hptr (e ▸ hq)
      rw [State.unlink, State.mem_assign_of_ne, State.mem_modify_ne _ _ hqx]
      intro r i e
      cases c with
      | nil => cases e
      | cons f c =>
          cases e
          exact hqp
  · rw [hnil]
    refine hx.reparent hxnd hnil (fun _ => ?_) fun q hq hqx => hkeep q ?_ hqx
    · rw [hat]
      exact ⟨by rw [Node.getPar_copyPar, hpar], Node.isBlack_copyPar .., rfl, rfl, rfl⟩
    · exact fun hqc => hdisj q hqc q hq rfl
  · rw [hat, Node.getPar_copyPar, hpar]

/-- The first half of `remove_bottom`: the sizes shrink and the node in focus is
replaced by its only child `x`, which may be the sentinel. -/
theorem Zip.unlink {d : Bool} {a : Word} {b : Bool} {k : Key} {x : RbTree Word Key}
    (h : Zip s c (.mk d a b k x .nil)) :
    ∃ s₁, s.shrink loopBound a = some s₁ ∧ s₁.nil = s.nil ∧ s₁.deref (refOf c) = a ∧
      (s₁.mem a).ch = (s.mem a).ch ∧ s₁.trace = s.trace ∧
      Zip (s₁.unlink (refOf c) a (ptr s.nil x)) c x ∧
      ((s₁.unlink (refOf c) a (ptr s.nil x)).mem (ptr s.nil x)).getPar = parent s.nil c ∧
      ((s₁.unlink (refOf c) a (ptr s.nil x)).mem a).isBlack = b := by
  obtain ⟨hax, -, -, -, -⟩ := h.mk_nodup
  have hac := h.root_notMem_ctx
  obtain ⟨hn, -, -, hx, -⟩ := repr_mk.mp h.focus
  have hlen : c.length + 1 < loopBound := by
    have h₁ := length_ctx_le c (RbTree.mk d a b k x .nil)
    have h₂ := h.plugged.count_lt
    rw [RbTree.count_mk] at h₁
    omega
  obtain ⟨m, hm⟩ : ∃ m, loopBound = m + 1 := ⟨2 ^ 32 - 1, rfl⟩
  let s₀ := s.modify a (fun n => n.setSize (n.size - 1))
  have keep : ∀ q, q ≠ a → s₀.mem q = s.mem q := fun q hq => State.mem_modify_ne s _ hq
  have hctx := h.ctx
  rw [ptr_mk, RbTree.count_mk] at hctx
  have hctx₀ : CtxRepr s₀ c a ((x.count + 0 + 1 : Nat) : Int) :=
    hctx.congr rfl rfl fun q hq => keep q (fun e => hac (e ▸ hq))
  obtain ⟨s₁, he, hc₁, hnil, hroot, htrace, hmem⟩ :=
    shrink_spec m hctx₀ h.ctx_nodup (by omega)
  have hnil' : s₁.nil = s.nil := hnil
  have hat : s₁.mem a = (s.mem a).setSize ((s.mem a).size - 1) := by
    rw [hmem a hac, State.mem_modify_same]
  have hfree : ∀ q, q ∉ ctxLocs c → q ≠ a → s₁.mem q = s.mem q := fun q hq hqa => by
    rw [hmem q hq, keep q hqa]
  have hs := h.sentinel
  have hs₁ : Sentinel s₁ := by
    have hnode : s₁.mem s.nil = s.mem s.nil :=
      hfree _ (fun hq => (h.ctx.nodeIs hq).1 rfl) hn.ne_nil.symm
    refine ⟨?_, ?_, ?_, ?_, ?_⟩ <;> rw [hnil']
    · exact hs.even
    · exact hs.ne_null
    · rw [hnode, hs.black]
    · intro i
      rw [hnode, hs.ch]
    · rw [hnode, hs.size]
  have hx₁ : Repr s₁ a x := by
    refine hx.congr hnil' fun q hq => hfree q ?_ (fun e => hax (e ▸ hq))
    exact h.disjoint (mem_locs_mk.mpr (.inr (.inl hq)))
  have hpar₁ : (s₁.mem a).getPar = parent s₁.nil c := by
    rw [hat, Node.getPar_setSize, hn.par, hnil']
  have hnd : (plug c x).locs.Nodup := by
    rw [(locs_plug_perm c x).nodup_iff]
    have hfull := (locs_plug_perm c (RbTree.mk d a b k x .nil)).nodup_iff.mp h.nodup
    rw [List.nodup_append] at hfull ⊢
    refine ⟨hfull.1, h.mk_nodup.2.2.1, fun q hq q' hq' e => ?_⟩
    exact hfull.2.2 q hq q' (mem_locs_mk.mpr (.inr (.inl hq'))) e
  obtain ⟨hz, hzpar, hzkeep⟩ :=
    Zip.of_unlink hs₁ hc₁ (by push_cast; omega) hx₁ hpar₁ hnd
  rw [hnil'] at hz hzpar hzkeep
  refine ⟨s₁, ?_, hnil', ?_, ?_, htrace, hz, hzpar, ?_⟩
  · rw [hm, State.shrink, if_neg hn.ne_nil]
    change s₀.shrink m (s₀.mem a).getPar = some s₁
    have hp : (s₀.mem a).getPar = parent s₀.nil c := by
      rw [State.mem_modify_same, Node.getPar_setSize, hn.par]
      rfl
    rw [hp, he]
  · cases c with
    | nil => exact hc₁
    | cons f c => exact hc₁.2.1
  · rw [hat, Node.ch_setSize]
  · rw [hzkeep a hac (ptr_ne hn.ne_nil hax).symm, hat, Node.isBlack_setSize, hn.black]

/-- `remove_bottom` on a node with at most one child removes exactly that node. -/
theorem removeBottom_spec {d : Bool} {a : Word} {b : Bool} {k : Key} {x : RbTree Word Key}
    (h : Zip s c (.mk d a b k x .nil)) (hx : d = false → x ≠ .nil)
    (hrb : IsRedBlack (plug c (.mk d a b k x .nil))) :
    ∃ s', s.removeBottom (refOf c) = some (s', a) ∧ Fixed s s' (plug c x) := by
  obtain ⟨hn, hd, hd', hrx, -⟩ := repr_mk.mp h.focus
  obtain ⟨s₁, hshrink, hnil, hderef, hch, htrace, hz, hzpar, hzblack⟩ := h.unlink
  obtain ⟨n, hc, hbal, hcol⟩ := hrb.unplug
  have hchild : (s₁.mem a).ch ((s₁.mem a).ch false == s₁.nil) = ptr s.nil x := by
    rw [hch, hnil]
    cases d with
    | true =>
        rw [Bool.not_true, ptr_nil] at hd'
        simp [hd', hd]
    | false =>
        have hne : ptr s.nil x ≠ s.nil := fun e => hx rfl (hrx.ptr_eq_nil_iff.mp e)
        rw [hd, beq_eq_false_iff_ne.mpr hne, hd]
  have hsnil : (s₁.unlink (refOf c) a (ptr s.nil x)).nil = s.nil := by
    simp [State.unlink, hnil]
  have htr : TraceOk s (s₁.unlink (refOf c) a (ptr s.nil x)) :=
    TraceOk.of_eq (by simp [State.unlink, htrace])
  have hxblack := hz.focus.isBlack_ptr hz.sentinel
  rw [hsnil] at hxblack
  have hrun : s.removeBottom (refOf c) =
      if b = false then some (s₁.unlink (refOf c) a (ptr s.nil x), a)
      else if x.isBlack = false then
        some ((s₁.unlink (refOf c) a (ptr s.nil x)).modify (ptr s.nil x) Node.setBlack, a)
      else ((s₁.unlink (refOf c) a (ptr s.nil x)).removeFix loopBound (ptr s.nil x)).map
        (·, a) := by
    rw [State.removeBottom, h.deref, ptr_mk, hshrink]
    simp only [hderef, hchild, Node.isRed_eq, Bool.not_eq_true']
    rw [← State.unlink, hzblack, hxblack]
  rw [hrun]
  cases b with
  | false =>
      rw [if_pos rfl]
      rw [RbTree.balanced_red_iff] at hbal
      exact ⟨_, rfl, hsnil, htr, _, hz.plugged, hc.plug hbal.2.1 (.inl hbal.1.1), rfl⟩
  | true =>
      rw [if_neg (by decide)]
      rw [RbTree.balanced_black_iff] at hbal
      obtain ⟨m, rfl, hxb, -⟩ := hbal
      cases hcx : x.isBlack with
      | false =>
          rw [if_pos rfl]
          have hleave := hz.leave hc (hxb.paint_black hcx)
          rw [hsnil] at hleave
          exact ⟨_, rfl, hleave.trans_entries hsnil htr rfl⟩
      | true =>
          rw [if_neg (by decide)]
          have hturns : turns c x.isBlack < loopBound := by
            have h₁ := length_ctx_le c (RbTree.mk d a true k x .nil)
            have h₂ := h.plugged.count_lt
            rw [RbTree.count_mk] at h₁
            simp only [turns, hcx, if_true]
            omega
          obtain ⟨s', he, hfix⟩ := removeFix_spec Key loopBound hz
            (by rw [hsnil]; exact hzpar) hc (.inl ⟨hcx, hxb⟩) hturns
          rw [hsnil] at he
          refine ⟨s', ?_, hfix.trans_entries hsnil htr rfl⟩
          rw [he]
          rfl

/-! ## The whole operation -/

theorem leftmost_spec {fuel : Nat} {par : Word} (prev : Word) (h : Repr s par t)
    (hfuel : t.count < fuel) :
    State.leftmost fuel s prev (ptr s.nil t) = some (t.locs.head?.getD prev) := by
  induction fuel generalizing t par prev with
  | zero => omega
  | succ fuel ih =>
      cases t with
      | nil => simp [State.leftmost, RbTree.locs]
      | node a b k l r =>
          obtain ⟨hn, hl, -, hrl, -⟩ := h
          rw [RbTree.count_node] at hfuel
          rw [ptr, State.leftmost, if_neg hn.ne_nil, hl, ih a hrl (by omega)]
          have hlocs : (RbTree.node a b k l r).locs = l.locs ++ a :: r.locs := by
            simp [RbTree.locs]
          rw [hlocs]
          cases l.locs <;> rfl

/-- What `erase(p)` promises: the key of `p` disappears from the in-order
sequence, and one of the nodes is given back. -/
structure Erased (s s' : State Key) (t : RbTree Word Key) (p freed : Word) : Prop where
  nil : s'.nil = s.nil
  trace : TraceOk s s'
  tree : ∃ t' pre post k, Zip s' [] t' ∧ IsRedBlack t' ∧ t.entries = pre ++ (p, k) :: post ∧
    t'.keys = (pre ++ post).map Prod.snd ∧ t.locs.Perm (freed :: t'.locs)

theorem erase_spec {p : Word} (h : Zip s [] t) (hrb : IsRedBlack t) (hp : p ∈ t.locs) :
    ∃ s' freed, s.erase p = some (s', some freed) ∧ Erased s s' t p freed := by
  obtain ⟨c, b, k, l, r, rfl⟩ := exists_ctx_of_mem hp
  have hz := h.unplug
  obtain ⟨hn, hl, hr, hrl, hrr⟩ := hz.focus
  have hpn : ¬ (p = s.nil ∨ p = null) := by
    rintro (e | e)
    · exact hn.ne_nil e
    · exact hn.ne_null e
  have hcount : r.count < loopBound := by
    have h₁ := length_ctx_le c (RbTree.node p b k l r)
    have h₂ := h.count_lt
    rw [RbTree.count_node] at h₁
    omega
  have hleft := leftmost_spec s.nil hrr hcount
  rw [← hr] at hleft
  rw [State.erase, if_neg hpn, hleft]
  by_cases hrn : r = .nil
  · subst hrn
    have href : s.getRef p = refOf c := Zip.getRef (d := false) hz
    -- no right subtree: the node itself is unlinked
    have hremove : ∃ s', s.removeBottom (refOf c) = some (s', p) ∧ Fixed s s' (plug c l) := by
      by_cases hln : l = .nil
      · subst hln
        exact removeBottom_spec (d := true) hz (by simp) hrb
      · exact removeBottom_spec (d := false) hz (fun _ => hln) hrb
    obtain ⟨s', he, hfix⟩ := hremove
    refine ⟨s', p, ?_, hfix.nil, hfix.trace, ?_⟩
    · simp [RbTree.locs, href, he]
    · obtain ⟨t', hz', hrb', hent⟩ := hfix.tree
      rw [entries_plug] at hent
      refine ⟨t', before c ++ l.entries, after c, k, hz', hrb', ?_, ?_, ?_⟩
      · rw [entries_plug]
        simp
      · rw [RbTree.keys, hent]
      · rw [RbTree.locs, RbTree.locs, hent, entries_plug]
        simp only [RbTree.entries_node, RbTree.entries_nil, List.map_append, List.map_cons,
          List.append_assoc, List.cons_append, List.nil_append]
        rw [← List.append_assoc, ← List.append_assoc]
        exact List.perm_middle
  · -- the in-order successor `m` gives its key to `p` and is unlinked instead
    obtain ⟨⟨m, k'⟩, rest, hr'⟩ : ∃ e rest, r.entries = e :: rest := by
      cases r with
      | nil => exact absurd rfl hrn
      | node q qb qk ql qr => exact List.exists_cons_of_ne_nil (by simp)
    have hmem : (m, k') ∈ r.entries := by simp [hr']
    have hkey : (s.mem m).key = k' := hrr.key_of_mem hmem
    have hmn : m ≠ s.nil := (hrr.nodeIs (List.mem_map_of_mem hmem)).1
    have hz₁ : Zip (s.modify p (·.setKey k')) c (.node p b k' l r) :=
      Zip.modifyRoot (d := false) hz _ _ (by simp) (by simp [hn.black]) (by simp) (by simp) (by simp)
    obtain ⟨c', m', mb, mk, mr, rest', hplug, hent, hbefore, hafter⟩ :=
      exists_leftmost hrn (⟨true, p, b, k', l⟩ :: c)
    rw [hr'] at hent
    cases hent
    have hrb₁ : IsRedBlack (plug c' (.node m mb k' .nil mr)) := by
      rw [hplug]
      exact hrb.rekey
    have hz₂ : Zip (s.modify p (·.setKey k')) c' (.node m mb k' .nil mr) := by
      apply Zip.unplug
      rw [hplug]
      exact hz₁.plugged
    obtain ⟨s', he, hfix⟩ := removeBottom_spec (d := true) hz₂ (by simp) hrb₁
    have href := Zip.getRef (d := true) hz₂
    refine ⟨s', m, ?_, hfix.nil, hfix.trace, ?_⟩
    · simp [RbTree.locs, hr', hmn, hkey, href, he]
    · obtain ⟨t', hz', hrb', hent'⟩ := hfix.tree
      rw [entries_plug, hbefore, List.append_assoc, hafter] at hent'
      simp only [before, after, if_true, List.nil_append, List.append_assoc] at hent'
      refine ⟨t', before c ++ l.entries, (m, k') :: rest ++ after c, k, hz', hrb', ?_, ?_, ?_⟩
      · rw [entries_plug, RbTree.entries_node, hr']
        simp
      · rw [RbTree.keys, hent']
        simp
      · rw [RbTree.locs, RbTree.locs, hent', entries_plug, RbTree.entries_node, hr']
        have middle : ((((before c).map Prod.fst ++ l.entries.map Prod.fst) ++ [p]) ++
            m :: (rest.map Prod.fst ++ (after c).map Prod.fst)).Perm _ := List.perm_middle
        simpa using middle

end Jkos.Rbt
