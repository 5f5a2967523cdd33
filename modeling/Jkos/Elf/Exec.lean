import Jkos.Elf.Content
import Jkos.Page.Quiet

/-!
# The calls of the loader in the kernel

The calls are executed on pages and memory, and what has been followed for single addresses
is what their pages show. This holds for pages of the user that are not shared with another
directory.
-/

namespace Jkos.Elf

open Exec (Ends)
open Page

variable {g : Layout} {U : Set Word} {s s' s₀ : Kernel} {σ σ' : Word → Content} {x : Content}
  {a b start stop : Word} {p : Slot} {F F' : Multiset Kheap.Block} {v : Byte}

/-- What the kernel does in a call. -/
def Call.exec : Call → Prog Unit
  | .allocInterval start stop => do
      Page.allocInterval (← Exec.read (·.currentPageDir)) start stop true true
  | .alloc addr => do
      let p ← getPageWith Kheap.kmalloc (← Exec.read (·.currentPageDir)) addr
      Page.alloc p true true
  | .fileRead dest bytes => Page.store dest bytes
  | .memset dest cnt => Page.memset dest 0 cnt.toNat
  | .lazyAllocInterval start stop => do
      Page.lazyAllocInterval (← Exec.read (·.currentPageDir)) start stop true true true

def execCalls : List Call → Prog Unit
  | [] => pure ()
  | c :: cs => do
      c.exec
      execCalls cs

/-! ## What is known, and what pages show -/

/-- The address has an entry that is open to the user. -/
def UserPage (s : Kernel) (a : Word) : Prop :=
  ∃ p, lookup s s.currentPageDir a = some p ∧ (s.page p).user = true

/-- The byte at the address is as described. Frames that were free at the beginning are those
of `s₀`. -/
def Shown.Holds (s₀ s : Kernel) (a : Word) : Shown → Prop
  | .unknown => True
  | .stale => UserPage s a ∧ ∃ f ∈ s₀.frames,
      peek s s.currentPageDir a = some (s₀.phys f (pageOffset a))
  | .value v => UserPage s a ∧ peek s s.currentPageDir a = some v

/-- The page and the byte are as described. -/
structure Content.Describes (s₀ s : Kernel) (a : Word) (x : Content) : Prop where
  held : x.frame = some true → ∃ p, lookup s s.currentPageDir a = some p ∧
    (s.page p).addr ≠ 0 ∧ (s.page p).user = true
  bare : x.frame = some false → ∀ p, lookup s s.currentPageDir a = some p → (s.page p).addr = 0
  shown : x.byte.Holds s₀ s a

/-- Nothing has changed for the user at the address. A table may have been made. -/
structure SameAt (s s' : Kernel) (a : Word) : Prop where
  entry : ∀ p, lookup s s.currentPageDir a = some p →
    lookup s' s'.currentPageDir a = some p ∧ (s'.page p).addr = (s.page p).addr ∧
      (s'.page p).user = (s.page p).user ∧ view s' p = view s p
  fresh : lookup s s.currentPageDir a = none →
    ∀ p, lookup s' s'.currentPageDir a = some p → (s'.page p).addr = 0

theorem SameAt.userPage (h : SameAt s s' a) (hu : UserPage s a) : UserPage s' a := by
  obtain ⟨p, hlook, huser⟩ := hu
  obtain ⟨hlook', -, huser', -⟩ := h.entry p hlook
  exact ⟨p, hlook', huser'.trans huser⟩

theorem SameAt.peek_eq (h : SameAt s s' a) (hu : UserPage s a) :
    peek s' s'.currentPageDir a = peek s s.currentPageDir a := by
  obtain ⟨p, hlook, -⟩ := hu
  obtain ⟨hlook', -, -, hview⟩ := h.entry p hlook
  rw [peek, peek, hlook, hlook']
  exact congrArg (Option.map _) hview

theorem SameAt.holds {y : Shown} (h : SameAt s s' a) (hy : y.Holds s₀ s a) : y.Holds s₀ s' a := by
  cases y with
  | unknown => exact trivial
  | stale =>
      obtain ⟨hu, f, hf, hpeek⟩ := hy
      exact ⟨h.userPage hu, f, hf, (h.peek_eq hu).trans hpeek⟩
  | value v => exact ⟨h.userPage hy.1, (h.peek_eq hy.1).trans hy.2⟩

theorem Content.Describes.same (h : x.Describes s₀ s a) (hsame : SameAt s s' a) :
    x.Describes s₀ s' a := by
  refine ⟨fun hx => ?_, fun hx p hlook' => ?_, hsame.holds h.shown⟩
  · obtain ⟨p, hlook, hheld, huser⟩ := h.held hx
    obtain ⟨hlook', haddr, huser', -⟩ := hsame.entry p hlook
    exact ⟨p, hlook', haddr ▸ hheld, huser'.trans huser⟩
  · cases hlook : lookup s s.currentPageDir a with
    | none => exact hsame.fresh hlook p hlook'
    | some q =>
        obtain ⟨hq, haddr, -, -⟩ := hsame.entry q hlook
        obtain rfl := Option.some.inj (hq.symm.trans hlook')
        rw [haddr]
        exact h.bare hx q hlook

/-- Work on the page of another address. -/
theorem work_sameAt (hs : Running g True F s) (hw : Work g True {p} s s')
    (hlook : lookup s s.currentPageDir a = some p) (hb : g.User (tbIdx b))
    (hne : pageOf b ≠ pageOf a) : SameAt s s' b := by
  refine ⟨fun q hq => ?_, fun hnone q hq => ?_⟩
  · have hcur := hs.linked.current
    have hqp : q ≠ p := fun e => hne (hs.linked.pageOf_eq_of_lookup hcur (e ▸ hq) hlook)
    have hedit := (hs.linked.ownPage hcur hb hq).editable hs.linked
    have hkept := (hw.steps.kept hedit hqp).weaker
    refine ⟨?_, hkept.addr, hkept.user, hw.steps.view_eq trivial hs.sound hedit hqp⟩
    rw [hw.lookup_eq, hw.current_eq, hq]
  · rw [hw.lookup_eq, hw.current_eq, hnone] at hq
    cases hq

/-- Memory that the kernel takes for a table. -/
theorem made_sameAt {i : BitVec 10} {src : Word}
    (hm : Made g True F F' s.currentPageDir i src s s') (hs : Running g True F s)
    (hnull : (s.dir s.currentPageDir).tables i = null) (ha : g.User (tbIdx a)) :
    SameAt s s' a := by
  have hcur := hm.grown.env.current
  obtain hsame | ⟨hnone, q, hq, hzero⟩ := hm.lookup_cases hnull s.currentPageDir a
  · refine ⟨fun p hp => ?_, fun hnone p hp => ?_⟩
    · have hown := hs.linked.ownPage hs.linked.current ha hp
      have hedit := hown.editable hs.linked
      have hkept := (hm.grown.steps.kept hedit hown.notMem_fresh).weaker
      refine ⟨?_, hkept.addr, hkept.user,
        hm.grown.steps.view_eq trivial hs.sound hedit hown.notMem_fresh⟩
      rw [hcur, hsame, hp]
    · rw [hcur, hsame, hnone] at hp
      cases hp
  · refine ⟨fun p hp => ?_, fun _ p hp => ?_⟩
    · rw [hnone] at hp
      cases hp
    · rw [hcur, hq] at hp
      obtain rfl := Option.some.inj hp
      rw [hzero]
      rfl

/-- The distances from the next address. -/
theorem toNat_sub_next {dest : Word} (hne : b ≠ dest) :
    (b - (dest + 1)).toNat + 1 = (b - dest).toNat := by
  have hb := b.isLt
  have hdest := dest.isLt
  have hnat : b.toNat ≠ dest.toNat := fun e => hne (Word.ext_toNat e)
  rw [BitVec.toNat_sub, BitVec.toNat_sub, BitVec.toNat_add]
  change (2 ^ 32 - (dest.toNat + 1) % 2 ^ 32 + b.toNat) % 2 ^ 32 + 1 = _
  omega

theorem toNat_sub_next_self (dest : Word) : (dest - (dest + 1)).toNat = 2 ^ 32 - 1 := by
  have hdest := dest.isLt
  rw [BitVec.toNat_sub, BitVec.toNat_add]
  change (2 ^ 32 - (dest.toNat + 1) % 2 ^ 32 + dest.toNat) % 2 ^ 32 = _
  omega

/-- Faults on a page that is not shared leave it so. -/
theorem faults_unshared (h : Faults p s s') (hs : Sound g True s) (hp : Editable g s p)
    (hun : Unshared s p) :
    Unshared s' p ∧ ((s'.page p).addr = (s.page p).addr ∨ (s'.page p).addr ∈ s.frames) := by
  induction h with
  | refl => exact ⟨hun, .inl rfl⟩
  | @tail t u hchain hstep ih =>
      have hw := Faults.work (K := {p}) hchain hs rfl hp
      obtain ⟨hun', haddr'⟩ := hstep.unshared (hw.steps.editable hp) ih.1
      refine ⟨hun', haddr'.elim (fun e => e ▸ ih.2) fun hmem => .inr ?_⟩
      exact (Faults.quiet hchain hs hp _ hmem).1

theorem writeByte_unshared (hs : Sound g True s) (hlook : lookup s s.currentPageDir a = some p)
    (hp : Editable g s p) {eip : Word} (hgrant : Granted s p true eip) (hun : Unshared s p) :
    Ends (writeByte a v eip) s (fun _ s' => Unshared s' p ∧
      ((s'.page p).addr = (s.page p).addr ∨ (s'.page p).addr ∈ s.frames))
      (fun e _ => e = .noFreeFrame) := by
  refine Ends.bind (access_ends hs hlook hp hgrant) fun _ _ hacc => ?_
  have hun' := faults_unshared hacc.faults hs hp hun
  exact hun'

/-- The state of the loader: the kernel works, the pages `U` are not shared, and they show
what has been followed since the state `s₀`. -/
structure Follows (g : Layout) (U : Set Word) (s₀ : Kernel) (σ : Word → Content) (s : Kernel) :
    Prop where
  running : ∃ F, Running g True F s
  env : SameEnv s₀ s
  quiet : Quiet s₀ s
  unshared : ∀ a ∈ U, PageUnshared s s.currentPageDir a
  describes : ∀ a ∈ U, (σ a).Describes s₀ s a

/-- The pages lie in the user range, and they are whole pages. -/
structure UserPages (g : Layout) (U : Set Word) : Prop where
  user : ∀ a ∈ U, g.User (tbIdx a)
  whole : ∀ a ∈ U, ∀ b, pageOf b = pageOf a → b ∈ U

namespace Follows

/-- `get_page` with `make`. -/
theorem getPage (h : Follows g U s₀ σ s) (hU : UserPages g U) (a : Word) :
    Ends (getPageWith Kheap.kmalloc s.currentPageDir a) s
      (fun p s' => Follows g U s₀ σ s' ∧ s'.currentPageDir = s.currentPageDir ∧
        lookup s' s'.currentPageDir a = some p) (fun _ _ => True) := by
  obtain ⟨F, hs⟩ := h.running
  have hcur := hs.linked.current
  rcases hlook : lookup s s.currentPageDir a with _ | q
  swap
  · exact .of_ok (getPageWith_of_lookup hlook) ⟨h, rfl, hlook⟩
  have hnull : (s.dir s.currentPageDir).tables (tbIdx a) = null := by
    by_contra hne
    rw [lookup, if_neg hne] at hlook
    cases hlook
  refine (((getPageWith_of_mem hs hcur a).mono (fun _ _ h => h) fun _ _ _ => trivial).and
    (getPage_quiet hs hcur a)).mono ?_ (fun _ _ h => h)
  rintro p s' ⟨⟨-, hsome⟩ | ⟨F', src, hm, rfl⟩, hquiet⟩
  · rw [hlook] at hsome
    cases hsome
  have hcur' := hm.grown.env.current
  have hlook' : lookup s' s'.currentPageDir a = some ⟨src, tbOffset a⟩ := by
    have ht : (s'.dir s.currentPageDir).tables (tbIdx a) = src := by
      rw [hm.dir, Kernel.dir_setDir_self]
      exact if_pos rfl
    rw [hcur', lookup, ht, if_neg hm.ne_null]
  refine ⟨⟨⟨F', hm.grown.running hs⟩, h.env.trans hm.grown.env, h.quiet.trans hquiet,
    fun b hb q hq => ?_, fun b hb => (h.describes b hb).same (made_sameAt hm hs hnull (hU.user b hb))⟩,
    hcur', hlook'⟩
  have hsame := made_sameAt hm hs hnull (hU.user b hb)
  rcases hb' : lookup s s.currentPageDir b with _ | r
  · exact .inl (hsame.fresh hb' q hq)
  · obtain ⟨hq', -⟩ := hsame.entry r hb'
    obtain rfl := Option.some.inj (hq'.symm.trans hq)
    have hedit := (hs.linked.ownPage hcur (hU.user b hb) hb').editable hs.linked
    exact (h.unshared b hb r hb').made trivial hm hs hedit

/-- Work on one of the pages, with what it makes of this page. -/
theorem page (h : Follows g U s₀ σ s) (hU : UserPages g U)
    (hlook : lookup s s.currentPageDir a = some p) (hw : Work g True {p} s s')
    (hquiet : Quiet s s') (hun : Unshared s' p)
    (haddr : (s'.page p).addr = (s.page p).addr ∨ (s'.page p).addr ∈ s.frames)
    (hpage : ∀ b, pageOf b = pageOf a → (σ b).Describes s₀ s b → (σ' b).Describes s₀ s' b)
    (hother : ∀ b, pageOf b ≠ pageOf a → σ' b = σ b) : Follows g U s₀ σ' s' := by
  obtain ⟨F, hs⟩ := h.running
  have hcur := hs.linked.current
  refine ⟨⟨F, hs.work hw⟩, h.env.trans hw.env, h.quiet.trans hquiet, fun b hb q hq => ?_,
    fun b hb => ?_⟩
  · rw [hw.lookup_eq, hw.current_eq] at hq
    rcases eq_or_ne q p with rfl | hne
    · exact hun
    · have hedit := (hs.linked.ownPage hcur (hU.user b hb) hq).editable hs.linked
      exact (h.unshared b hb q hq).work hs.sound hw hedit hne haddr
  · by_cases hb' : pageOf b = pageOf a
    · exact hpage b hb' (h.describes b hb)
    · rw [hother b hb']
      exact (h.describes b hb).same (work_sameAt hs hw hlook (hU.user b hb) hb')

theorem congr (h : Follows g U s₀ σ s) (hσ : ∀ b, σ' b = σ b) : Follows g U s₀ σ' s := by
  rw [show σ' = σ from funext hσ]
  exact h

theorem editable (h : Follows g U s₀ σ s) (hU : UserPages g U) (ha : a ∈ U)
    (hlook : lookup s s.currentPageDir a = some p) : Editable g s p := by
  obtain ⟨F, hs⟩ := h.running
  exact (hs.linked.ownPage hs.linked.current (hU.user a ha) hlook).editable hs.linked

/-- Addresses of one page have one entry. -/
theorem lookup_of_pageOf (hpage : pageOf b = pageOf a) (d : Word) : lookup s d b = lookup s d a := by
  obtain ⟨hidx, hoff⟩ := idx_eq_of_pageOf hpage
  rw [lookup, lookup, hidx, hoff]

section Page

variable (h : Follows g U s₀ σ s) (hU : UserPages g U) (ha : a ∈ U)
  (hlook : lookup s s.currentPageDir a = some p)
include h hU ha hlook

/-- `alloc` of a page. -/
theorem alloc : Ends (Page.alloc p true true) s
    (fun _ s' => Follows g U s₀ (fun b => if pageOf b = pageOf a then (σ b).alloc else σ b) s')
    (fun _ _ => True) := by
  have hp := h.editable hU ha hlook
  have hun := h.unshared a ha p hlook
  obtain ⟨F, hs⟩ := id h.running
  have hboth := ((alloc_ends s p true true).mono (fun _ _ h => h) fun _ _ _ => trivial).and
    ((alloc_acts true true s p hs.sound hp fun _ _ => hun).and (alloc_quiet p true true))
  refine hboth.mono ?_ (fun _ _ h => h)
  rintro - s' ⟨halloc, ⟨hw, haddr⟩, hquiet⟩
  obtain ⟨hheld, hrw, huser, -⟩ := halloc.page_self hs.sound.frames
  have hun' : Unshared s' p := .of_rw (hw.steps.sound hs.sound) (hw.steps.editable hp) hrw
  refine h.page hU hlook hw hquiet hun' haddr (fun b hb hdesc => ?_) fun b hb => if_neg hb
  have hlook₁ : lookup s s.currentPageDir b = some p := (lookup_of_pageOf hb _).trans hlook
  have hlook' : lookup s' s'.currentPageDir b = some p := by
    rw [hw.lookup_eq, hw.current_eq, hlook₁]
  have hpage : UserPage s' b := ⟨p, hlook', huser⟩
  rw [if_pos hb]
  refine ⟨fun _ => ⟨p, hlook', hheld, huser⟩, fun e => ?_, ?_⟩
  · rw [Content.frame_alloc] at e
    cases e
  have hshow : peek s' s'.currentPageDir b = some (s'.phys (s'.page p).addr (pageOffset b)) := by
    rw [peek, hlook']
    change (view s' p).map _ = _
    rw [view, if_pos hheld]
    rfl
  rw [Content.alloc]
  rcases hx : (σ b).frame with _ | _ | _
  · exact trivial
  · -- the page gets the frame on top of the stack, which nothing has changed yet
    have hzero := hdesc.bare hx p hlook₁
    obtain ⟨-, f, rest, top, rfl⟩ := halloc.resolve_left fun hheld' => hheld'.1 hzero
    obtain ⟨hf, hphys⟩ := h.quiet f (top ▸ List.mem_cons_self)
    refine ⟨hpage, f, hf, ?_⟩
    rw [hshow, page_taken]
    exact congrArg some (congrFun hphys _)
  · -- a page with a frame keeps it
    obtain ⟨q, hq, hheld', huser'⟩ := hdesc.held hx
    obtain rfl := Option.some.inj (hq.symm.trans hlook₁)
    obtain ⟨-, rfl⟩ := halloc.resolve_right fun hzero => hheld' hzero.1
    refine SameAt.holds ⟨fun r hr => ?_, fun hnone => ?_⟩ hdesc.shown
    · obtain rfl := Option.some.inj (hr.symm.trans hlook₁)
      refine ⟨hlook', ?_, ?_, ?_⟩
      · rw [Kernel.page_setEntry_self]
      · rw [Kernel.page_setEntry_self, huser']
      · rw [view, view, Kernel.page_setEntry_self]
        rfl
    · rw [hlook₁] at hnone
      cases hnone

/-- `lazy_alloc` of a page. -/
theorem lazyAlloc : Ends (Page.lazyAlloc p true true true) s
    (fun _ s' => Follows g U s₀ (fun b => if pageOf b = pageOf a then (σ b).write 0 else σ b) s')
    (fun _ _ => True) := by
  have hp := h.editable hU ha hlook
  have hun := h.unshared a ha p hlook
  obtain ⟨F, hs⟩ := id h.running
  have hboth := (lazyAlloc_fill hp true true).and ((lazyAlloc_addr hp).and
    (lazyAlloc_quiet hs.sound.frames hp true true))
  refine ((hboth.mono (fun _ _ h => h) fun _ _ h => h.elim).and
    (lazyAlloc_acts true true true s p hs.sound hp fun _ _ => hun)).mono ?_ (fun _ _ h => h)
  rintro - s' ⟨⟨⟨hview, hrw, huser, -⟩, hsame, hquiet⟩, hw, haddr⟩
  have hun' : Unshared s' p := .of_rw (hw.steps.sound hs.sound) (hw.steps.editable hp) hrw
  refine h.page hU hlook hw hquiet hun' haddr (fun b hb hdesc => ?_) fun b hb => if_neg hb
  have hlook₁ : lookup s s.currentPageDir b = some p := (lookup_of_pageOf hb _).trans hlook
  have hlook' : lookup s' s'.currentPageDir b = some p := by
    rw [hw.lookup_eq, hw.current_eq, hlook₁]
  rw [if_pos hb]
  refine ⟨fun hx => ?_, fun hx r hr => ?_, ⟨p, hlook', huser⟩, ?_⟩
  · obtain ⟨q, hq, hheld, -⟩ := hdesc.held hx
    obtain rfl := Option.some.inj (hq.symm.trans hlook₁)
    exact ⟨q, hlook', hsame ▸ hheld, huser⟩
  · obtain rfl := Option.some.inj (hr.symm.trans hlook')
    rw [hsame]
    exact hdesc.bare hx r hlook₁
  · rw [peek, hlook']
    change (view s' p).map _ = _
    rw [hview]
    rfl

end Page

/-- A byte is written to a page with a frame. -/
theorem writeByte (h : Follows g U s₀ σ s) (hU : UserPages g U) (ha : a ∈ U)
    (hheld : (σ a).frame = some true) (v : Byte) :
    Ends (Page.writeByte a v (s.kernelCodeEnd - 1)) s
      (fun _ s' => Follows g U s₀ (fun b => if b = a then (σ b).write v else σ b) s')
      (fun _ _ => True) := by
  obtain ⟨p, hlook, hheld, huser⟩ := (h.describes a ha).held hheld
  have hp := h.editable hU ha hlook
  have hun := h.unshared a ha p hlook
  obtain ⟨F, hs⟩ := id h.running
  have hgrant : Granted s p true (s.kernelCodeEnd - 1) :=
    ⟨⟨(hs.sound.shaped p hp).2 hheld, .inl huser⟩, fun _ => .inr huser⟩
  refine (((writeByte_ends hs.sound hlook hp v hgrant).and
    ((writeByte_quiet hs.sound hlook hp hgrant).and
      (writeByte_unshared hs.sound hlook hp hgrant hun))).mono ?_ fun _ _ _ => trivial)
  rintro - s' ⟨⟨htouch, hheld', bytes, hbytes, hview'⟩, hquiet, hun', haddr⟩
  have hw := htouch.work
  have hview : view s p = some bytes := by
    rw [view, if_pos hheld]
    exact congrArg some (hbytes (fun _ => hs.scratched.ne) _ (if_pos hheld)).symm
  refine h.page hU hlook hw hquiet hun' haddr (fun b hb hdesc => ?_) fun b hb => ?_
  swap
  · exact if_neg fun e : b = a => hb (congrArg pageOf e)
  have hlook₁ : lookup s s.currentPageDir b = some p := (lookup_of_pageOf hb _).trans hlook
  have hlook' : lookup s' s'.currentPageDir b = some p := by
    rw [hw.lookup_eq, hw.current_eq, hlook₁]
  have huser' : (s'.page p).user = true := (htouch.user p hp).trans huser
  have hframe : ∀ {y : Content}, y.frame = (σ b).frame → (y.frame = some true → ∃ q,
      lookup s' s'.currentPageDir b = some q ∧ (s'.page q).addr ≠ 0 ∧ (s'.page q).user = true) ∧
      (y.frame = some false → ∀ q, lookup s' s'.currentPageDir b = some q →
        (s'.page q).addr = 0) := by
    intro y hy
    refine ⟨fun _ => ⟨p, hlook', hheld', huser'⟩, fun e => ?_⟩
    exact absurd (hdesc.bare (hy.symm.trans e) p hlook₁) hheld
  split
  · next e =>
      subst e
      obtain ⟨h₁, h₂⟩ := hframe (y := (σ b).write v) rfl
      refine ⟨h₁, h₂, ⟨p, hlook', huser'⟩, ?_⟩
      rw [peek, hlook']
      change (view s' p).map _ = _
      rw [hview']
      exact congrArg some (if_pos rfl)
  · next hne =>
      obtain ⟨h₁, h₂⟩ := hframe (y := σ b) rfl
      have hpeek : peek s' s'.currentPageDir b = peek s s.currentPageDir b := by
        rw [peek, peek, hlook₁, hlook']
        change (view s' p).map _ = (view s p).map _
        rw [hview, hview']
        exact congrArg some (if_neg fun e => hne (eq_of_pageOf hb e))
      refine ⟨h₁, h₂, ?_⟩
      have hshown := hdesc.shown
      revert hshown
      cases (σ b).byte with
      | unknown => exact fun _ => trivial
      | stale =>
          rintro ⟨-, f, hf, hshow⟩
          exact ⟨⟨p, hlook', huser'⟩, f, hf, hpeek.trans hshow⟩
      | value w => exact fun hshow => ⟨⟨p, hlook', huser'⟩, hpeek.trans hshow.2⟩

/-- Bytes are written to pages with frames. -/
theorem store {dest : Word} {vs : List Byte} (h : Follows g U s₀ σ s) (hU : UserPages g U)
    (hlen : vs.length < 2 ^ 32)
    (hin : ∀ b, (b - dest).toNat < vs.length → b ∈ U ∧ (σ b).frame = some true) :
    Ends (Page.store dest vs) s
      (fun _ s' => Follows g U s₀ (fun b => if (b - dest).toNat < vs.length then
        (σ b).write (vs.getD (b - dest).toNat 0) else σ b) s') (fun _ _ => True) := by
  induction vs generalizing dest σ s with
  | nil => exact h.congr fun b => if_neg (Nat.not_lt_zero _)
  | cons v vs ih =>
      rw [List.length_cons] at hlen
      obtain ⟨ha, hheld⟩ := hin dest (by simp)
      refine (Ends.bind_of_ok (x := kernelEip) rfl).mpr
        (Ends.bind (h.writeByte hU ha hheld v) fun _ s₁ h₁ => ?_)
      refine (ih h₁ (by omega) fun b hb => ?_).mono (fun _ s' h' => h'.congr fun b => ?_)
        (fun _ _ h => h)
      · have hne : b ≠ dest := by
          rintro rfl
          rw [toNat_sub_next_self] at hb
          omega
        obtain ⟨hbU, hframe⟩ := hin b (by
          rw [List.length_cons, ← toNat_sub_next hne]
          omega)
        exact ⟨hbU, by rwa [if_neg hne]⟩
      · rcases eq_or_ne b dest with rfl | hne
        · have hout : ¬ (b - (b + 1)).toNat < vs.length := by
            rw [toNat_sub_next_self]
            omega
          rw [if_neg hout, if_pos rfl, if_pos (by simp)]
          simp
        · rw [if_neg hne, ← toNat_sub_next hne, List.length_cons, List.getD_cons_succ]
          simp only [Nat.add_lt_add_iff_right]

/-- Clearing bytes of pages with frames. -/
theorem memset {dest : Word} {n : Nat} (h : Follows g U s₀ σ s) (hU : UserPages g U)
    (hlen : n < 2 ^ 32) (hin : ∀ b, (b - dest).toNat < n → b ∈ U ∧ (σ b).frame = some true) :
    Ends (Page.memset dest 0 n) s (fun _ s' => Follows g U s₀
      (fun b => if (b - dest).toNat < n then (σ b).write 0 else σ b) s') (fun _ _ => True) := by
  rw [memset_eq_store]
  refine (h.store hU (by rwa [List.length_replicate]) fun b hb => hin b ?_).mono
    (fun _ _ h' => h'.congr fun b => ?_) (fun _ _ h => h)
  · rwa [List.length_replicate] at hb
  · rw [List.length_replicate]
    split
    · next hb => rw [List.getD_replicate _ hb]
    · rfl

section Interval

variable {m : Content → Content} {act : Slot → Prog Unit}
  (hact : ∀ {σ s a p}, Follows g U s₀ σ s → a ∈ U → lookup s s.currentPageDir a = some p →
    Ends (act p) s
      (fun _ s' => Follows g U s₀ (fun b => if pageOf b = pageOf a then m (σ b) else σ b) s')
      (fun _ _ => True))
include hact

/-- A function on the page of an address, which `get_page` finds or makes. -/
theorem onPage (h : Follows g U s₀ σ s) (hU : UserPages g U) (ha : a ∈ U) :
    Ends (do let p ← getPageWith Kheap.kmalloc s.currentPageDir a
             act p) s
      (fun _ s' => Follows g U s₀ (fun b => if pageOf b = pageOf a then m (σ b) else σ b) s')
      (fun _ _ => True) :=
  Ends.bind (h.getPage hU a) fun _ _ ⟨h₁, _, hlook⟩ => hact h₁ ha hlook

/-- The same for all pages of an interval. -/
theorem onInterval (h : Follows g U s₀ σ s) (hU : UserPages g U)
    (halign : pageOf start = start ∧ pageOf stop = stop)
    (hin : ∀ b, start ≤ b → b < stop → b ∈ U) :
    Ends (interval (fun i => do let p ← getPageWith Kheap.kmalloc s.currentPageDir i
                                act p) start stop) s
      (fun _ s' => Follows g U s₀ (fun b => if start ≤ b ∧ b < stop then m (σ b) else σ b) s')
      (fun _ _ => True) := by
  let I : Word → Kernel → Prop := fun i s' =>
    Follows g U s₀ (fun b => if start ≤ b ∧ b < i ∧ b < stop then m (σ b) else σ b) s'
  have hI : I start s := h.congr fun b => if_neg fun hb =>
    absurd hb.1 (BitVec.not_le.mpr hb.2.1)
  refine (interval_ends I hI (fun i s₁ hi hle hlt h₁ => ?_) fun _ => trivial).mono ?_
    (fun _ _ h => h)
  · have hcur : s₁.currentPageDir = s.currentPageDir := h₁.env.current.trans h.env.current.symm
    rw [← hcur]
    refine (onPage hact h₁ hU (hin i hle hlt)).mono (fun _ _ h₂ => h₂.congr fun b => ?_)
      (fun _ _ h => h)
    -- the addresses of the page are those from `i` to the next page
    obtain ⟨hnext, -, hroom⟩ := next_page hi halign.2 hlt
    have hpage : pageOf b = pageOf i ↔ i ≤ b ∧ b < i + 0x1000 := by
      have hmod := congrArg BitVec.toNat hi
      rw [toNat_pageOf] at hmod
      rw [pageOf_eq_iff, BitVec.le_def, BitVec.lt_def, hnext]
      omega
    rw [BitVec.le_def] at hle
    rw [BitVec.lt_def] at hlt
    by_cases hb : i ≤ b ∧ b < i + 0x1000
    · have hbi := hb
      rw [BitVec.le_def, BitVec.lt_def, hnext] at hbi
      have hout : ¬ (start ≤ b ∧ b < i ∧ b < stop) := by
        rw [BitVec.lt_def (x := b) (y := i)]
        omega
      have hin' : start ≤ b ∧ b < i + 0x1000 ∧ b < stop := by
        rw [BitVec.le_def, BitVec.lt_def, BitVec.lt_def, hnext]
        omega
      rw [if_pos (hpage.mpr hb), if_neg hout, if_pos hin']
    · rw [if_neg fun e => hb (hpage.mp e)]
      refine if_congr ?_ rfl rfl
      rw [BitVec.le_def, BitVec.lt_def, hnext] at hb
      simp only [BitVec.le_def, BitVec.lt_def, hnext]
      omega
  · rintro - s' ⟨j, hj, h'⟩
    refine h'.congr fun b => ?_
    refine if_congr ?_ rfl rfl
    simp only [BitVec.le_def, BitVec.lt_def] at hj ⊢
    omega

end Interval

/-- A call of the loader. -/
theorem call {c : Call} (h : Follows g U s₀ σ s) (hU : UserPages g U) (hlegal : c.Legal U σ) :
    Ends c.exec s (fun _ s' => Follows g U s₀ (fun b => c.effect b (σ b)) s')
      (fun _ _ => True) := by
  cases c with
  | allocInterval start stop =>
      obtain ⟨hstart, hstop, hin⟩ := hlegal
      rw [Call.exec, Ends.bind_read, allocInterval, allocIntervalWith]
      exact onInterval (fun h ha hlook => h.alloc hU ha hlook) h hU ⟨hstart, hstop⟩ hin
  | alloc addr => exact onPage (fun h ha hlook => h.alloc hU ha hlook) h hU hlegal
  | fileRead dest bytes =>
      obtain ⟨hlen, hin⟩ := hlegal
      exact h.store hU (by omega) hin
  | memset dest cnt =>
      have hlt := cnt.isLt
      exact h.memset hU (by omega) hlegal
  | lazyAllocInterval start stop =>
      obtain ⟨hstart, hstop, hin⟩ := hlegal
      rw [Call.exec, Ends.bind_read, lazyAllocInterval, lazyAllocIntervalWith]
      exact onInterval (m := fun x => x.write 0) (fun h ha hlook => h.lazyAlloc hU ha hlook) h hU
        ⟨hstart, hstop⟩ hin

/-- All calls of the loader. -/
theorem calls {cs : List Call} (h : Follows g U s₀ σ s) (hU : UserPages g U)
    (hlegal : LegalRun U cs σ) :
    Ends (execCalls cs) s (fun _ s' => Follows g U s₀ (fun b => effects cs b (σ b)) s')
      (fun _ _ => True) := by
  induction cs generalizing σ s with
  | nil => exact h
  | cons c cs ih => exact Ends.bind (h.call hU hlegal.1) fun _ _ h₁ => ih h₁ hlegal.2

end Follows

end Jkos.Elf
