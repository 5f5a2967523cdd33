import Jkos.Lib.Forks
import Jkos.Page.Fill
import Jkos.Page.Ops

/-!
# Address spaces as private memories

Directories that come from one directory by cloning share the frames of the user range
until one of them writes. To each of them the user range nevertheless looks like a memory
of its own, which began as a copy of what its parent had at the time of the clone.
-/

namespace Jkos.Page

open Exec Kheap

variable {g : Layout} {s s' s'' t s₀ s₁ : Kernel} {p q : Slot} {F F' : Multiset Block}
  {d d' a b src dest eip : Word} {write : Bool} {f : Frame}

/-- What happens to address spaces, which are directories. -/
abbrev Event := Forks.Event Word Word Byte

/-- An address of the user range, which lies between the tables of the kernel and its
heap. -/
def UserAddr (s : Kernel) (a : Word) : Prop :=
  s.kernelLowNtable ≤ (tbIdx a).toNat ∧ (tbIdx a).toNat < heapBeginIdx

/-- The contents of the page of `a`, and of no other page. -/
def pageContents (a : Word) (bytes : BitVec 12 → Byte) (b : Word) : Option Byte :=
  if pageOf b = pageOf a then some (bytes (pageOffset b)) else none

/-- One thing that happens, with what it adds to the history. User pages are set up as long
as there is one directory; `alloc` leaves a page that has a frame as it is. -/
inductive SpaceStep (s : Kernel) : List Event → Kernel → Prop
  | alloc {a : Word} {p : Slot} {t s' : Kernel} (single : s.dirs = [s.currentPageDir])
      (ha : UserAddr s a) (hget : getPageWith kmalloc s.currentPageDir a s = (.ok p, t))
      (hrun : Page.alloc p true true t = (.ok (), s')) :
      SpaceStep s (if (t.page p).addr = 0 then
        [.provide (pageContents a (s'.phys (s'.page p).addr))] else []) s'
  | lazyAlloc {a : Word} {p : Slot} {t s' : Kernel} (single : s.dirs = [s.currentPageDir])
      (ha : UserAddr s a) (hget : getPageWith kmalloc s.currentPageDir a s = (.ok p, t))
      (hrun : Page.lazyAlloc p true true true t = (.ok (), s')) :
      SpaceStep s [.provide (pageContents a fun _ => 0)] s'
  | fork {src dest : Word} {s' : Kernel} (hsrc : src ∈ s.dirs)
      (hrun : cloneDirectory src s = (.ok dest, s')) : SpaceStep s [.fork src dest] s'
  | switch {d : Word} (hd : d ∈ s.dirs) : SpaceStep s [.switch d] (enable d s).2
  | read {a eip : Word} {v : Byte} {s' : Kernel} (ha : UserAddr s a)
      (hrun : readByte a eip s = (.ok v, s')) : SpaceStep s [.read a v] s'
  | write {a eip : Word} {v : Byte} {s' : Kernel} (ha : UserAddr s a)
      (hrun : writeByte a v eip s = (.ok (), s')) : SpaceStep s [.write a v] s'

/-- Any number of such steps. -/
inductive SpaceRun (s₁ : Kernel) : List Event → Kernel → Prop
  | refl : SpaceRun s₁ [] s₁
  | tail {es es' : List Event} {s s' : Kernel} (h : SpaceRun s₁ es s)
      (hstep : SpaceStep s es' s') : SpaceRun s₁ (es' ++ es) s'

/-! ## The invariant -/

/-- A fault on a page that is not shared leaves it so, with its frame or a free one. -/
theorem Resolved.unshared (h : Resolved p s s') (hp : Editable g s p) (hun : Unshared s p) :
    Unshared s' p ∧ ((s'.page p).addr = (s.page p).addr ∨ (s'.page p).addr ∈ s.frames) := by
  cases h with
  | @lazy f rest zero top =>
      have href : (faultIn s p f rest).frameRefCnt f = 1 := by
        simp only [faultIn]
        split
        · rw [fillUint32_apply]
          exact if_pos rfl
        · exact if_pos rfl
      rw [Unshared, page_faultIn hp, top]
      exact ⟨.inr href, .inr List.mem_cons_self⟩
  | upgrade user held one =>
      rw [Unshared, Kernel.page_setEntry_self]
      exact ⟨.inr one, .inl rfl⟩
  | copy user held many top => exact absurd (hun.resolve_left held) many

/-- An entry that has been set up belongs to the user, and its page has contents. -/
def UserEntry (e : TableEntry) : Prop :=
  e.allocable = true → e.user = true ∧ (e.addr = 0 → e.allocFill ≠ 0)

theorem Weaker.userEntry {e e' : TableEntry} (h : Weaker e e') (he : UserEntry e) :
    UserEntry e' := by
  rw [UserEntry, h.allocable, h.user, h.addr, h.allocFill]
  exact he

/-- A new table shows nothing. -/
theorem Made.lookup_cases {c : Prop} {i : BitVec 10} (hm : Made g c F F' d i src s s')
    (hnull : (s.dir d).tables i = null) (d' b : Word) : lookup s' d' b = lookup s d' b ∨
      (lookup s d' b = none ∧ ∃ q, lookup s' d' b = some q ∧ s'.page q = TableEntry.zero) := by
  by_cases hnew : d' = d ∧ tbIdx b = i
  · obtain ⟨rfl, rfl⟩ := hnew
    have ht : (s'.dir d').tables (tbIdx b) = src := by
      rw [hm.dir, Kernel.dir_setDir_self]
      exact if_pos rfl
    refine .inr ⟨?_, ⟨src, tbOffset b⟩, ?_, hm.zero _⟩
    · rw [lookup, if_pos hnull]
    · rw [lookup, ht, if_neg hm.ne_null]
  · have ht : (s'.dir d').tables (tbIdx b) = (s.dir d').tables (tbIdx b) := by
      rw [hm.dir]
      rcases eq_or_ne d' d with rfl | hdd
      · rw [Kernel.dir_setDir_self]
        exact if_neg fun e => hnew ⟨rfl, e⟩
      · rw [Kernel.dir_setDir_of_ne _ _ hdd]
    exact .inl (by rw [lookup, lookup, ht])

/-- A writable page is not shared. -/
theorem Unshared.of_rw (hs : Sound g True s) (hp : Editable g s p) (hrw : (s.page p).rw = true) :
    Unshared s p := by
  by_cases hzero : (s.page p).addr = 0
  · exact .inl hzero
  · exact .inr (hs.exclusive trivial p hp hzero (.inl hrw))

theorem lazyAlloc_of_zero (h : (s.page p).addr = 0) (user writable fillZero : Bool) :
    lazyAlloc p user writable fillZero s = (.ok (), s.setEntry p ({ · with
      rw := writable, user := user, allocable := true
      allocFill := if fillZero then 1 else 0 })) := by
  simp only [lazyAlloc, bind_apply, modify_apply, read_apply, Kernel.page_setEntry_self, if_pos h,
    Kernel.setEntry_setEntry]

theorem lazyAlloc_of_held (h : (s.page p).addr ≠ 0) (user writable : Bool) :
    lazyAlloc p user writable true s =
      fillUint32 p 0 (s.setEntry p ({ · with rw := writable, user := user })) := by
  simp only [lazyAlloc, bind_apply, modify_apply, read_apply, Kernel.page_setEntry_self, if_neg h,
    if_true]

/-- What a page shows after `lazy_alloc` with `fill_zero`. -/
theorem lazyAlloc_fill (hp : Editable g s p) (user writable : Bool) :
    Ends (Page.lazyAlloc p user writable true) s (fun _ s' => view s' p = some (fun _ => 0) ∧
      (s'.page p).rw = writable ∧ (s'.page p).user = user ∧
      ((s'.page p).addr = 0 → (s'.page p).allocFill ≠ 0)) (fun _ _ => False) := by
  have hfill : (1 : BitVec 2) ≠ 0 := by decide
  by_cases hzero : (s.page p).addr = 0
  · refine Ends.of_ok (lazyAlloc_of_zero hzero user writable true) ?_
    rw [view, Kernel.page_setEntry_self, if_neg (not_not.mpr hzero), if_pos ⟨rfl, hfill⟩]
    exact ⟨rfl, rfl, rfl, fun _ => hfill⟩
  · refine Ends.of_ok ((lazyAlloc_of_held hzero user writable).trans (fillUint32_apply _ _ _)) ?_
    set s₁ := s.setEntry p ({ · with rw := writable, user := user }) with hs₁
    have hpage₁ : s₁.page p = { s.page p with rw := writable, user := user } :=
      Kernel.page_setEntry_self _ _ _
    have hpage : ((scratched s₁ (s₁.page p).addr).setFrame (s₁.page p).addr (fillBytes 0)).page p =
        s₁.page p := page_scratched (s := s₁) ⟨hp.counted, hp.ordinary⟩ _
    rw [view, hpage, hpage₁, if_pos hzero, fillBytes_zero]
    exact ⟨congrArg some (if_pos rfl), rfl, rfl, fun e => absurd e hzero⟩

/-- The entries of the user range in a clone. -/
theorem Cloned.lookup_cases {c : Prop} (hc : Cloned g c F F' src dest s s')
    (ha : g.User (tbIdx a)) : (lookup s src a = none ∧ lookup s' dest a = none) ∨
      ∃ p q, lookup s src a = some p ∧ lookup s' dest a = some q ∧
        Weaker (s.page p) (s'.page q) := by
  obtain ⟨ht, ht'⟩ | ⟨ht, ht', hweak⟩ := hc.clones _ ha
  · exact .inl ⟨by rw [lookup, if_pos ht], by rw [lookup, if_pos ht']⟩
  · exact .inr ⟨_, _, if_neg ht, if_neg ht', hweak _⟩

/-- The page is in a table that does not belong to the kernel. -/
def OwnPage (g : Layout) (s : Kernel) (p : Slot) : Prop := p.table ∈ s.tables ∧ p.table ∉ g.kernel

theorem Linked.ownPage (h : Linked g s) (hd : d ∈ s.dirs) (ha : g.User (tbIdx a))
    (hlook : lookup s d a = some p) : OwnPage g s p := by
  obtain ⟨-, rfl, hne⟩ := h.lookup_mem hd hlook
  exact h.owned.own d hd _ ha.not_shared hne

/-- The entry of a user page belongs to one directory. -/
theorem Linked.eq_of_own (h : Linked g s) (hd : d ∈ s.dirs) (hd' : d' ∈ s.dirs)
    (ha : g.User (tbIdx a)) (hlook : lookup s d a = some p)
    (hlook' : lookup s d' b = some p) : d = d' ∧ pageOf a = pageOf b := by
  have hb : ¬ g.Shared (tbIdx b) := by
    intro hshared
    have hp := h.lookup_shared hd' hshared
    obtain rfl := Option.some.inj (hlook'.symm.trans hp)
    exact (h.ownPage hd ha hlook).2 ⟨_, hshared, rfl⟩
  obtain ⟨-, hp, hne⟩ := h.lookup_mem hd hlook
  obtain ⟨-, hp', -⟩ := h.lookup_mem hd' hlook'
  have htable := (congrArg Slot.table hp).symm.trans (congrArg Slot.table hp')
  obtain ⟨rfl, -⟩ := h.owned.unique d hd d' hd' _ _ ha.not_shared hb hne htable
  exact ⟨rfl, h.pageOf_eq_of_lookup hd hlook hlook'⟩

theorem OwnPage.editable (h : OwnPage g s p) (hl : Linked g s) : Editable g s p :=
  hl.editable_user h.1 h.2

theorem OwnPage.notMem_fresh (h : OwnPage g s p) : p ∉ g.fresh s := by
  rintro (hk | hnew)
  · exact h.2 hk
  · exact hnew h.1

variable (g) in
/-- The invariant: what has been set up in the user range are pages with contents for the
user, and before the first clone nothing is shared. -/
structure Spaces (s : Kernel) : Prop where
  running : ∃ F, Running g True F s
  entry : ∀ d ∈ s.dirs, ∀ a, g.User (tbIdx a) → ∀ p, lookup s d a = some p → UserEntry (s.page p)
  unshared : s.dirs = [s.currentPageDir] →
    ∀ a, g.User (tbIdx a) → PageUnshared s s.currentPageDir a

namespace Spaces

theorem linked (h : Spaces g s) : Linked g s := by
  obtain ⟨F, hs⟩ := h.running
  exact hs.linked

theorem sound (h : Spaces g s) : Sound g True s := by
  obtain ⟨F, hs⟩ := h.running
  exact hs.sound

theorem userAddr_iff (h : Spaces g s) (a : Word) : UserAddr s a ↔ g.User (tbIdx a) := by
  rw [UserAddr, h.linked.low, Layout.User]

theorem editable (h : Spaces g s) (hd : d ∈ s.dirs) (ha : g.User (tbIdx a))
    (hlook : lookup s d a = some p) : Editable g s p :=
  (h.linked.ownPage hd ha hlook).editable h.linked

/-- A page that has been set up shows something. -/
theorem view_isSome (h : Spaces g s) (hd : d ∈ s.dirs) (ha : g.User (tbIdx a))
    (hlook : lookup s d a = some p) (halloc : (s.page p).allocable = true) :
    ∃ bytes, view s p = some bytes := by
  rw [view]
  split
  · exact ⟨_, rfl⟩
  · next hzero =>
      rw [ne_eq, not_not] at hzero
      have hfill := (h.entry d hd a ha p hlook halloc).2 hzero
      rw [if_pos ⟨halloc, hfill⟩]
      exact ⟨_, rfl⟩

/-- Work on one user page of the current directory. -/
theorem work (h : Spaces g s)
    (hlook : lookup s s.currentPageDir a = some p) (hw : Work g True {p} s s')
    (hentry : UserEntry (s'.page p)) (hun : s.dirs = [s.currentPageDir] → Unshared s' p)
    (haddr : s.dirs = [s.currentPageDir] →
      (s'.page p).addr = (s.page p).addr ∨ (s'.page p).addr ∈ s.frames) : Spaces g s' := by
  obtain ⟨F, hs⟩ := h.running
  refine ⟨⟨F, hs.work hw⟩, fun d hd b hb q hq => ?_, fun hsingle b hb q hq => ?_⟩
  · rw [hw.dirs_eq] at hd
    rw [hw.lookup_eq] at hq
    rcases eq_or_ne q p with rfl | hne
    · exact hentry
    · exact (hw.steps.kept (h.editable hd hb hq) hne).weaker.userEntry (h.entry d hd b hb q hq)
  · rw [hw.dirs_eq, hw.current_eq] at hsingle
    rw [hw.lookup_eq, hw.current_eq] at hq
    rcases eq_or_ne q p with rfl | hne
    · exact hun hsingle
    · have hedit := h.editable h.linked.current hb hq
      exact (h.unshared hsingle b hb q hq).work h.sound hw hedit hne (haddr hsingle)

/-- Work that leaves what the page shows cannot be seen anywhere. -/
theorem peek_eq (h : Spaces g s) (hw : Work g True {p} s s') (hview : view s' p = view s p) :
    ∀ d ∈ s.dirs, ∀ b, g.User (tbIdx b) → peek s' d b = peek s d b := by
  intro d hd b hb
  rw [peek, peek, hw.lookup_eq]
  cases hq : lookup s d b with
  | none => rfl
  | some q =>
      have hsame : view s' q = view s q := by
        rcases eq_or_ne q p with rfl | hne
        · exact hview
        · exact hw.steps.view_eq trivial h.sound (h.editable hd hb hq) hne
      exact congrArg (Option.map _) hsame

/-- A fault on a user page. -/
theorem resolved (h : Spaces g s) (ha : g.User (tbIdx a))
    (hlook : lookup s s.currentPageDir a = some p) (huser : (s.page p).user = true)
    (hr : Resolved p s s') : Spaces g s' := by
  have hp := h.editable h.linked.current ha hlook
  obtain ⟨hheld, huser', -⟩ := hr.page_self h.sound.frames hp
  have hentry : UserEntry (s'.page p) := fun _ => ⟨huser'.trans huser, fun e => absurd e hheld⟩
  have hw := hr.work (g := g) (c := True) (K := {p}) h.sound.frames rfl hp
  have hun := fun hsingle => hr.unshared hp (h.unshared hsingle a ha p hlook)
  exact h.work hlook hw hentry (fun hsingle => (hun hsingle).1) (fun hsingle => (hun hsingle).2)

/-- Faults on a user page, one after the other. -/
theorem faults (h : Spaces g s) (ha : g.User (tbIdx a))
    (hlook : lookup s s.currentPageDir a = some p) (huser : (s.page p).user = true)
    (hr : Faults p s s') : Spaces g s' := by
  have hp := h.editable h.linked.current ha hlook
  induction hr with
  | refl => exact h
  | tail hchain hstep ih =>
      have hw := Faults.work (K := {p}) hchain h.sound rfl hp
      refine ih.resolved ha ?_ ?_ hstep
      · rw [hw.lookup_eq, hw.current_eq, hlook]
      · rw [Faults.user_eq hchain h.sound hp, huser]

/-! ## Reads and writes -/

theorem granted (h : Spaces g s) (ha : g.User (tbIdx a))
    (hlook : lookup s s.currentPageDir a = some p) (halloc : (s.page p).allocable = true) :
    Granted s p write eip := by
  have huser := (h.entry _ h.linked.current a ha p hlook halloc).1
  exact ⟨⟨halloc, .inl huser⟩, fun _ => .inr huser⟩

/-- An access that ends well has found a page that was set up, and to the eye it has changed
nothing. -/
theorem access (h : Spaces g s) (ha : g.User (tbIdx a))
    (hrun : access a write eip s = (.ok f, s')) :
    ∃ p, lookup s s.currentPageDir a = some p ∧ Editable g s p ∧ Accessed p write s f s' ∧
      Work g True {p} s s' ∧ Spaces g s' ∧
      ∀ d ∈ s.dirs, ∀ b, g.User (tbIdx b) → peek s' d b = peek s d b := by
  cases hlook : lookup s s.currentPageDir a with
  | none => exact ((access_of_none hlook).ok hrun).elim
  | some p =>
      have hp := h.editable h.linked.current ha hlook
      have halloc : (s.page p).allocable = true := by
        by_contra hclosed
        rw [Bool.not_eq_true] at hclosed
        exact (access_of_closed h.sound hlook hp hclosed).ok hrun
      have hgrant : Granted s p write eip := h.granted ha hlook halloc
      have hacc := (access_ends h.sound hlook hp hgrant).ok hrun
      have hw := hacc.faults.work (K := {p}) h.sound rfl hp
      have huser := (h.entry _ h.linked.current a ha p hlook halloc).1
      have hview : view s' p = view s p := by
        obtain ⟨F, hs⟩ := h.running
        obtain ⟨bytes, hbytes⟩ := h.view_isSome h.linked.current ha hlook halloc
        rw [hbytes]
        exact hacc.faults.view_self h.sound hp (fun _ => hs.scratched.ne) hbytes
      exact ⟨p, rfl, hp, hacc, hw, h.faults ha hlook huser hacc.faults, h.peek_eq hw hview⟩

theorem readByte (h : Spaces g s) (ha : g.User (tbIdx a)) {v : Byte}
    (hrun : readByte a eip s = (.ok v, s')) :
    Spaces g s' ∧ s'.currentPageDir = s.currentPageDir ∧ s'.dirs = s.dirs ∧
      peek s s.currentPageDir a = some v ∧
      ∀ d ∈ s.dirs, ∀ b, g.User (tbIdx b) → peek s' d b = peek s d b := by
  obtain ⟨f, t, haccess, hread⟩ := bind_eq_ok hrun
  cases hread
  obtain ⟨p, hlook, hp, hacc, hw, hspaces, hpeek⟩ := h.access ha haccess
  refine ⟨hspaces, hw.current_eq, hw.dirs_eq, ?_, hpeek⟩
  rw [← hpeek _ h.linked.current a ha, peek, hw.lookup_eq, hlook]
  have hheld : (s'.page p).addr ≠ 0 := hacc.addr ▸ hacc.held
  change (view s' p).map _ = _
  rw [view, if_pos hheld, hacc.addr]
  rfl

/-- A write shows at its address in the current directory, and nowhere else. -/
theorem writeByte (h : Spaces g s) (ha : g.User (tbIdx a)) {v : Byte}
    (hrun : writeByte a v eip s = (.ok (), s')) :
    Spaces g s' ∧ s'.currentPageDir = s.currentPageDir ∧ s'.dirs = s.dirs ∧
      peek s' s.currentPageDir a = some v ∧
      ∀ d ∈ s.dirs, ∀ b, g.User (tbIdx b) → (d = s.currentPageDir → b ≠ a) →
        peek s' d b = peek s d b := by
  obtain ⟨f, t, haccess, hwrite⟩ := bind_eq_ok hrun
  cases hwrite
  obtain ⟨p, hlook, hp, hacc, hw, hspaces, hpeek⟩ := h.access ha haccess
  have hheld : (t.page p).addr ≠ 0 := hacc.addr ▸ hacc.held
  have hp' := hw.steps.editable hp
  have hlook' : lookup t t.currentPageDir a = some p := by
    rw [hw.lookup_eq, hw.current_eq, hlook]
  have hone : t.frameRefCnt f = 1 := by
    rw [← hacc.addr]
    exact hspaces.sound.exclusive trivial p hp' hheld (.inl (hacc.writable rfl))
  have hstep : Work g True {p} t (t.setByte f (pageOffset a) v) := by
    rw [← hacc.addr] at hone ⊢
    exact .single (.write p _ rfl hp' hheld fun _ => .inr hone) rfl
  have hview : view (t.setByte f (pageOffset a) v) p =
      some (fun o => if o = pageOffset a then v else t.phys f o) := by
    have hpage : (t.setByte f (pageOffset a) v).page p = t.page p := rfl
    rw [view, hpage, if_pos hheld, hacc.addr]
    exact congrArg some (if_pos rfl)
  refine ⟨?_, hw.current_eq, hw.dirs_eq, ?_, fun d hd b hb hne => ?_⟩
  · refine hspaces.work hlook' hstep ?_ (fun hsingle => ?_) fun _ => .inl rfl
    · exact hspaces.entry _ hspaces.linked.current a ha p hlook'
    · exact hspaces.unshared hsingle a ha p hlook'
  · rw [peek, hstep.lookup_eq, hw.lookup_eq, hlook]
    change (view _ p).map _ = _
    rw [hview]
    exact congrArg some (if_pos rfl)
  · rw [← hpeek d hd b hb, peek, peek, hstep.lookup_eq]
    cases hq : lookup t d b with
    | none => rfl
    | some q =>
        change (view _ q).map _ = (view t q).map _
        have hd' : d ∈ t.dirs := hw.dirs_eq ▸ hd
        rcases eq_or_ne q p with rfl | hqp
        · -- an entry of the user range belongs to one page of one directory
          obtain ⟨rfl, hpage⟩ := hspaces.linked.eq_of_own hspaces.linked.current hd' ha hlook' hq
          have hoff : pageOffset b ≠ pageOffset a := fun e =>
            hne hw.current_eq (eq_of_pageOf hpage.symm e)
          rw [hview, view, if_pos hheld, hacc.addr]
          exact congrArg some (if_neg hoff)
        · rw [hstep.steps.view_eq trivial hspaces.sound (hspaces.editable hd' hb hq) hqp]

/-! ## Setting up pages -/

/-- What a user page shows while the kernel takes memory for its own objects. -/
theorem grown (h : Spaces g s) (hg : Grown g True F F' s s') (hd : d ∈ s.dirs)
    (ha : g.User (tbIdx a)) (hlook : lookup s d a = some p) :
    view s' p = view s p ∧ UserEntry (s'.page p) := by
  have hown := h.linked.ownPage hd ha hlook
  have hp := hown.editable h.linked
  refine ⟨hg.steps.view_eq trivial h.sound hp hown.notMem_fresh, ?_⟩
  exact (hg.steps.kept hp hown.notMem_fresh).weaker.userEntry (h.entry d hd a ha p hlook)

theorem getPage (h : Spaces g s)
    (hrun : getPageWith kmalloc s.currentPageDir a s = (.ok p, t)) :
    Spaces g t ∧ t.currentPageDir = s.currentPageDir ∧ t.dirs = s.dirs ∧
      lookup t s.currentPageDir a = some p ∧
      ∀ d ∈ s.dirs, ∀ b, g.User (tbIdx b) → peek t d b = peek s d b := by
  obtain ⟨F, hs⟩ := h.running
  have hcur := h.linked.current
  rcases hlook : lookup s s.currentPageDir a with _ | q
  swap
  · rw [getPageWith_of_lookup hlook] at hrun
    cases hrun
    exact ⟨h, rfl, rfl, hlook, fun _ _ _ _ => rfl⟩
  obtain ⟨-, hsome⟩ | ⟨F', src, hm, rfl⟩ := (getPageWith_of_mem hs hcur a).ok hrun
  · exact absurd (hlook.symm.trans hsome) (by simp)
  have hnull : (s.dir s.currentPageDir).tables (tbIdx a) = null := by
    by_contra hne
    rw [lookup, if_neg hne] at hlook
    exact absurd hlook (by simp)
  have hcases := hm.lookup_cases hnull
  have hmem : ∀ {d}, d ∈ t.dirs → d ∈ s.dirs := fun hd => by rwa [hm.dirs] at hd
  refine ⟨⟨⟨F', hm.grown.running hs⟩, fun d hd b hb q hq => ?_, fun hsingle b hb q hq => ?_⟩,
    hm.grown.env.current, hm.dirs, ?_, fun d hd b hb => ?_⟩
  · obtain hsame | ⟨-, q', hq', hzero⟩ := hcases d b
    · exact (h.grown hm.grown (hmem hd) hb (hsame ▸ hq)).2
    · obtain rfl := Option.some.inj (hq'.symm.trans hq)
      rw [hzero]
      exact fun e => absurd e (by decide)
  · rw [hm.dirs, hm.grown.env.current] at hsingle
    rw [hm.grown.env.current] at hq
    obtain hsame | ⟨-, q', hq', hzero⟩ := hcases s.currentPageDir b
    · rw [hsame] at hq
      exact (h.unshared hsingle b hb q hq).made trivial hm hs (h.editable hcur hb hq)
    · obtain rfl := Option.some.inj (hq'.symm.trans hq)
      rw [Unshared, hzero]
      exact .inl rfl
  · have ht : (t.dir s.currentPageDir).tables (tbIdx a) = src := by
      rw [hm.dir, Kernel.dir_setDir_self]
      exact if_pos rfl
    rw [lookup, ht, if_neg hm.ne_null]
  · obtain hsame | ⟨hnone, q, hq, hzero⟩ := hcases d b
    · rw [peek, peek, hsame]
      cases hq : lookup s d b with
      | none => rfl
      | some q => exact congrArg (Option.map _) (h.grown hm.grown hd hb hq).1
    · rw [peek, peek, hnone, hq]
      change (view t q).map _ = none
      rw [view, hzero]
      rfl

section Provide

variable (h : Spaces g s) (hlook : lookup s s.currentPageDir a = some p)
include h hlook

/-- What the directory shows after its page has got contents. -/
theorem provided (hw : Work g True {p} s s') {bytes : BitVec 12 → Byte}
    (hview : view s' p = some bytes) (hb : g.User (tbIdx b)) :
    peek s' s.currentPageDir b =
      (pageContents a bytes b).or (peek s s.currentPageDir b) := by
  rw [peek, hw.lookup_eq, pageContents]
  by_cases hpage : pageOf b = pageOf a
  · obtain ⟨hidx, hoff⟩ := idx_eq_of_pageOf hpage
    have hlook' : lookup s s.currentPageDir b = some p := by
      rw [← hlook, lookup, lookup, hidx, hoff]
    rw [hlook', if_pos hpage]
    change (view s' p).map _ = _
    rw [hview]
    rfl
  · rw [if_neg hpage, Option.none_or, peek]
    cases hq : lookup s s.currentPageDir b with
    | none => rfl
    | some q =>
        have hne : q ≠ p := by
          rintro rfl
          exact hpage (h.linked.pageOf_eq_of_lookup h.linked.current hq hlook)
        have hedit := h.editable h.linked.current hb hq
        exact congrArg (Option.map _) (hw.steps.view_eq trivial h.sound hedit hne)

variable (ha : g.User (tbIdx a)) (hsingle : s.dirs = [s.currentPageDir])
include ha hsingle

theorem alloc (hrun : Page.alloc p true true s = (.ok (), s')) :
    Spaces g s' ∧ Work g True {p} s s' ∧ ((s.page p).addr ≠ 0 → view s' p = view s p) ∧
      view s' p = some (s'.phys (s'.page p).addr) := by
  have hp := h.editable h.linked.current ha hlook
  have hun := h.unshared hsingle a ha p hlook
  obtain ⟨hw, haddr⟩ := (alloc_acts true true s p h.sound hp fun _ _ => hun).ok hrun
  have halloc := (alloc_ends s p true true).ok hrun
  obtain ⟨hheld, hrw, huser, -⟩ := halloc.page_self h.sound.frames
  have hun' : Unshared s' p := .of_rw (hw.steps.sound h.sound) (hw.steps.editable hp) hrw
  refine ⟨h.work hlook hw (fun _ => ⟨huser, fun e => absurd e hheld⟩) (fun _ => hun') fun _ => haddr,
    hw, fun hold => ?_, ?_⟩
  · obtain ⟨-, rfl⟩ := halloc.resolve_right fun hzero => hold hzero.1
    rw [view, view, Kernel.page_setEntry_self]
    rfl
  · rw [view, if_pos hheld]

theorem lazyAlloc (hrun : Page.lazyAlloc p true true true s = (.ok (), s')) :
    Spaces g s' ∧ Work g True {p} s s' ∧ view s' p = some (fun _ => 0) := by
  have hp := h.editable h.linked.current ha hlook
  have hun := h.unshared hsingle a ha p hlook
  obtain ⟨hw, haddr⟩ := (lazyAlloc_acts true true true s p h.sound hp fun _ _ => hun).ok hrun
  obtain ⟨hview, hrw, huser, hfill⟩ := (lazyAlloc_fill hp true true).ok hrun
  have hun' : Unshared s' p := .of_rw (hw.steps.sound h.sound) (hw.steps.editable hp) hrw
  exact ⟨h.work hlook hw (fun _ => ⟨huser, hfill⟩) (fun _ => hun') fun _ => haddr, hw, hview⟩

end Provide

/-! ## Clones -/

/-- A clone shows what its source shows, and no other directory sees a difference. -/
theorem fork (h : Spaces g s) (hsrc : src ∈ s.dirs)
    (hrun : cloneDirectory src s = (.ok dest, s')) :
    Spaces g s' ∧ s'.currentPageDir = s.currentPageDir ∧ dest ∉ s.dirs ∧
      s'.dirs = dest :: s.dirs ∧ (∀ a, g.User (tbIdx a) → peek s' dest a = peek s src a) ∧
      ∀ d ∈ s.dirs, ∀ a, g.User (tbIdx a) → peek s' d a = peek s d a := by
  obtain ⟨F, hs⟩ := h.running
  obtain ⟨F', hc⟩ := (cloneDirectory_ends hs hsrc).ok hrun
  have hg := hc.grown
  have hold : ∀ d ∈ s.dirs, ∀ a, lookup s' d a = lookup s d a := fun d hd a => by
    rw [lookup, lookup, hc.others d fun e => hc.fresh (e ▸ hd)]
  refine ⟨⟨⟨F', hg.running hs⟩, fun d hd a ha q hq => ?_, fun hsingle => ?_⟩, hg.env.current,
    hc.fresh, hc.dirs, fun a ha => ?_, fun d hd a ha => ?_⟩
  · rw [hc.dirs, List.mem_cons] at hd
    obtain rfl | hd := hd
    · obtain ⟨-, hnone⟩ | ⟨p, q', hlook, hq', hweak⟩ := hc.lookup_cases ha
      · exact absurd (hnone.symm.trans hq) (by simp)
      · obtain rfl := Option.some.inj (hq'.symm.trans hq)
        exact hweak.userEntry (h.entry src hsrc a ha p hlook)
    · rw [hold d hd] at hq
      exact (h.grown hg hd ha hq).2
  · rw [hc.dirs] at hsingle
    exact absurd h.linked.current (by simp [(List.cons.inj hsingle).2])
  · rw [peek, peek]
    obtain ⟨hnone, hnone'⟩ | ⟨p, q, hlook, hq, hweak⟩ := hc.lookup_cases ha
    · rw [hnone, hnone']
      rfl
    · have hown := h.linked.ownPage hsrc ha hlook
      have hphys := hg.steps.phys_kept trivial h.sound (hown.editable h.linked) hown.notMem_fresh
      have hview : view s' q = view s p := by
        rw [view, view, hweak.addr, hweak.allocable, hweak.allocFill, hphys]
      rw [hlook, hq]
      exact congrArg (Option.map _) hview
  · rw [peek, peek, hold d hd]
    cases hq : lookup s d a with
    | none => rfl
    | some q => exact congrArg (Option.map _) (h.grown hg hd ha hq).1

theorem enable (h : Spaces g s) (hd : d ∈ s.dirs) : Spaces g (enable d s).2 := by
  obtain ⟨F, hs⟩ := h.running
  refine ⟨⟨F, hs.enable hd⟩, h.entry, fun hsingle => ?_⟩
  -- with a single directory this is no switch at all
  change s.dirs = [d] at hsingle
  have hcur : s.currentPageDir = d := by
    have := h.linked.current
    rwa [hsingle, List.mem_singleton] at this
  change ∀ a, g.User (tbIdx a) → PageUnshared s d a
  rw [← hcur] at hsingle ⊢
  exact h.unshared hsingle

/-- A page with contents can be read and written unless frames run out. -/
theorem access_ends (h : Spaces g s) (ha : g.User (tbIdx a))
    (hsome : peek s s.currentPageDir a ≠ none) :
    Ends (Page.access a write eip) s (fun _ _ => True) (fun e _ => e = .noFreeFrame) := by
  cases hlook : lookup s s.currentPageDir a with
  | none =>
      rw [peek, hlook] at hsome
      exact absurd rfl hsome
  | some p =>
      have hp := h.editable h.linked.current ha hlook
      have halloc : (s.page p).allocable = true := by
        by_contra hclosed
        have hzero : (s.page p).addr = 0 := by
          by_contra hheld
          exact hclosed ((h.sound.shaped p hp).2 hheld)
        have hnone : view s p = none := by
          rw [view, if_neg (not_not.mpr hzero), if_neg fun hopen => hclosed hopen.1]
        rw [peek, hlook] at hsome
        change (view s p).map _ ≠ none at hsome
        rw [hnone] at hsome
        exact hsome rfl
      exact (Page.access_ends h.sound hlook hp (h.granted ha hlook halloc)).mono
        (fun _ _ _ => trivial) (fun _ _ he => he)

end Spaces

/-! ## Runs -/

variable {es es' : List Event}

variable (g) in
/-- What the directories show agrees with the history. -/
abbrev Shows (d₀ : Word) (es : List Event) (s : Kernel) : Prop :=
  Forks.Agrees d₀ {a | g.User (tbIdx a)} es s.currentPageDir {d | d ∈ s.dirs} (peek s)

theorem SpaceStep.shows {d₀ : Word} (hstep : SpaceStep s es' s') (h : Spaces g s)
    (hshow : Shows g d₀ es s) : Spaces g s' ∧ Shows g d₀ (es' ++ es) s' := by
  cases hstep with
  | @alloc a p t _ single ha hget hrun =>
      rw [h.userAddr_iff] at ha
      obtain ⟨ht, hcur, hdirs, hlook, hpeek⟩ := h.getPage hget
      have hshow₁ := hshow.keep hpeek
      rw [← hcur] at hlook
      have hsingle : t.dirs = [t.currentPageDir] := by rw [hdirs, hcur, single]
      have hall : ∀ d ∈ s.dirs, d = s.currentPageDir := by simp [single]
      obtain ⟨hs', hw, hheld, hview⟩ := ht.alloc hlook ha hsingle hrun
      refine ⟨hs', ?_⟩
      rw [Shows, hw.current_eq, hw.dirs_eq, hcur, hdirs]
      split
      · refine hshow₁.provide (fun b hb => ?_) fun d hd hne => absurd (hall d hd) hne
        have := ht.provided hlook hw hview hb
        rwa [hcur] at this
      · next hzero =>
          have hkeep := ht.peek_eq hw (hheld hzero)
          rw [hdirs] at hkeep
          exact hshow₁.keep hkeep
  | @lazyAlloc a p t _ single ha hget hrun =>
      rw [h.userAddr_iff] at ha
      obtain ⟨ht, hcur, hdirs, hlook, hpeek⟩ := h.getPage hget
      have hshow₁ := hshow.keep hpeek
      rw [← hcur] at hlook
      have hsingle : t.dirs = [t.currentPageDir] := by rw [hdirs, hcur, single]
      have hall : ∀ d ∈ s.dirs, d = s.currentPageDir := by simp [single]
      obtain ⟨hs', hw, hview⟩ := ht.lazyAlloc hlook ha hsingle hrun
      refine ⟨hs', ?_⟩
      rw [Shows, hw.current_eq, hw.dirs_eq, hcur, hdirs]
      refine hshow₁.provide (fun b hb => ?_) fun d hd hne => absurd (hall d hd) hne
      have := ht.provided hlook hw hview hb
      rwa [hcur] at this
  | @fork src dest _ hsrc hrun =>
      obtain ⟨hs', hcur, hfresh, hdirs, hnew, hold⟩ := h.fork hsrc hrun
      have hlive : {d | d ∈ dest :: s.dirs} = insert dest {d | d ∈ s.dirs} :=
        Set.ext fun _ => List.mem_cons
      refine ⟨hs', ?_⟩
      rw [Shows, hcur, hdirs, hlive]
      exact hshow.fork hsrc hfresh hnew hold
  | @switch d hd => exact ⟨h.enable hd, hshow.switch hd⟩
  | @read a eip v _ ha hrun =>
      rw [h.userAddr_iff] at ha
      obtain ⟨hs', hcur, hdirs, hv, hpeek⟩ := h.readByte ha hrun
      refine ⟨hs', ?_⟩
      rw [Shows, hcur, hdirs]
      exact (hshow.read ha hv).keep hpeek
  | @write a eip v _ ha hrun =>
      rw [h.userAddr_iff] at ha
      obtain ⟨hs', hcur, hdirs, hself, hother⟩ := h.writeByte ha hrun
      refine ⟨hs', ?_⟩
      rw [Shows, hcur, hdirs]
      exact hshow.write hself hother

theorem SpaceRun.shows (hrun : SpaceRun s₁ es s) (h : Spaces g s₁)
    (hshow : Shows g s₁.currentPageDir [] s₁) : Spaces g s ∧ Shows g s₁.currentPageDir es s := by
  induction hrun with
  | refl => exact ⟨h, hshow⟩
  | tail _ hstep ih => exact hstep.shows ih.1 ih.2

/-- After the boot nothing is mapped in the user range. -/
theorem Booted.spaces (hboot : Booted g s₀) (hinit : initEmptyPages s₀ = (.ok (), s₁)) :
    Spaces g s₁ ∧ Shows g s₁.currentPageDir [] s₁ := by
  obtain ⟨hstart, hdirs, hdir, -⟩ := (initEmptyPages_ends hboot).ok hinit
  have hrunning := hstart.running
  have hnone : ∀ d ∈ s₁.dirs, ∀ a, g.User (tbIdx a) → lookup s₁ d a = none := by
    intro d hd a ha
    rw [hdirs, hboot.dirs, List.mem_singleton] at hd
    rw [lookup, hdir, hd]
    exact if_pos (hboot.user _ ha.not_shared)
  obtain ⟨F, hs⟩ := hrunning
  have hcur := hs.linked.current
  refine ⟨⟨⟨F, hs⟩, fun d hd a ha p hlook => ?_, fun _ a ha p hlook => ?_⟩,
    rfl, hcur, trivial, fun d hd a ha => ?_⟩
  · exact absurd ((hnone d hd a ha).symm.trans hlook) (by simp)
  · exact absurd ((hnone _ hcur a ha).symm.trans hlook) (by simp)
  · rw [peek, hnone d hd a ha]
    rfl

/-- The directories in existence are private memories with this history, which began in the
directory `d₀`. -/
structure PrivateMemories (d₀ : Word) (es : List Event) (s : Kernel) : Prop where
  reads : Forks.Faithful d₀ es
  shows : ∀ d ∈ s.dirs, ∀ a, UserAddr s a → peek s d a = Forks.value d₀ es d a
  /-- Memory that has been set up can be accessed, by user code and by the kernel. -/
  accesses : ∀ a write eip, UserAddr s a → Forks.value d₀ es s.currentPageDir a ≠ none →
    Ends (access a write eip) s (fun _ _ => True) (fun e _ => e = .noFreeFrame)

theorem spaces_private (hboot : Booted g s₀) (hinit : initEmptyPages s₀ = (.ok (), s₁))
    (hrun : SpaceRun s₁ es s) : PrivateMemories s₁.currentPageDir es s := by
  obtain ⟨hs₁, hshow₁⟩ := hboot.spaces hinit
  obtain ⟨hs, hshow⟩ := hrun.shows hs₁ hshow₁
  refine ⟨hshow.faithful, fun d hd a ha => ?_, fun a write eip ha hsome => ?_⟩
  · exact hshow.shows d hd a ((hs.userAddr_iff a).mp ha)
  · rw [hs.userAddr_iff] at ha
    rw [← hshow.shows _ hshow.cur_mem a ha] at hsome
    exact hs.access_ends ha hsome

theorem bootStarted_current : bootStarted.currentPageDir = 0x2E0000 := by decide +kernel

theorem bootUser_user :
    bootLayout.User (tbIdx 0xEF800000) ∧ bootLayout.User (tbIdx 0xEF800003) :=
  ⟨⟨by decide, by decide⟩, by decide, by decide⟩

/-- A directory with a page of its own. -/
theorem bootUser_spaces : (∃ es, SpaceRun bootStarted es bootUser) ∧
    Spaces bootLayout bootUser ∧ bootUser.dirs = [0x2E0000] ∧
    bootUser.currentPageDir = 0x2E0000 := by
  obtain ⟨h₁, -⟩ := bootKernel_booted.spaces bootStarted_run
  have hcur₁ := bootStarted_current
  have hget : getPageWith kmalloc bootStarted.currentPageDir 0xEF800000 bootStarted =
      (.ok ⟨0xEFC04000, 0⟩, bootTabled) := by rw [hcur₁, bootTabled_run]
  have hsingle₁ : bootStarted.dirs = [bootStarted.currentPageDir] := by
    rw [bootStarted_dirs, hcur₁]
  obtain ⟨h₂, hcur₂, hdirs₂, hlook₂, -⟩ := h₁.getPage hget
  rw [← hcur₂] at hlook₂
  have hsingle₂ : bootTabled.dirs = [bootTabled.currentPageDir] := by rw [hdirs₂, hcur₂, hsingle₁]
  obtain ⟨h₃, hw₃, -⟩ := h₂.alloc hlook₂ bootUser_user.1 hsingle₂ bootUser_run
  refine ⟨⟨_, SpaceRun.refl.tail (.alloc hsingle₁ ((h₁.userAddr_iff _).mpr bootUser_user.1) hget
    bootUser_run)⟩, h₃, ?_, ?_⟩
  · rw [hw₃.dirs_eq, hdirs₂, bootStarted_dirs]
  · rw [hw₃.current_eq, hcur₂, hcur₁]

theorem bootUser_mem : 0x2E0000 ∈ bootUser.dirs := by
  rw [bootUser_spaces.2.2.1]
  exact List.mem_singleton_self _

/-- Two directories that share the page. -/
theorem bootForked_spaces : Spaces bootLayout bootForked ∧
    bootForked.dirs = [0xEFC06000, 0x2E0000] := by
  obtain ⟨-, h, hdirs, -⟩ := bootUser_spaces
  obtain ⟨h', -, -, hdirs', -⟩ := h.fork bootUser_mem bootForked_run
  exact ⟨h', by rw [hdirs', hdirs]⟩

/-- Two directories with a page of their own each, where the first is at work. -/
theorem bootParted_spaces : ∃ es, SpaceRun bootStarted es bootParted ∧
    Spaces bootLayout bootParted := by
  have huser := bootUser_user.2
  obtain ⟨⟨es, hrun₁⟩, -⟩ := bootUser_spaces
  obtain ⟨h₄, hdirs₄⟩ := bootForked_spaces
  obtain ⟨h₅, -, hdirs₅, -⟩ := h₄.writeByte huser bootWritten_run
  have hchild : (0xEFC06000 : Word) ∈ bootWritten.dirs := by
    rw [hdirs₅, hdirs₄]
    exact List.mem_cons_self
  have h₆ := h₅.enable hchild
  have hrun₇ := eq_ok_of_toOption boot_runs.2.2.2.2.1
  obtain ⟨h₇, -, hdirs₇, -⟩ := h₆.writeByte huser hrun₇
  have hparent : (0x2E0000 : Word) ∈
      (writeByte 0xEF800003 8 0xEF800000 (Page.enable 0xEFC06000 bootWritten).2).2.dirs := by
    rw [hdirs₇]
    change _ ∈ bootWritten.dirs
    rw [hdirs₅, hdirs₄]
    decide
  have hrun₂ := (hrun₁.tail (.fork bootUser_mem bootForked_run)).tail
    (.write ((h₄.userAddr_iff _).mpr huser) bootWritten_run)
  have hrun₃ := (hrun₂.tail (.switch hchild)).tail (.write ((h₆.userAddr_iff _).mpr huser) hrun₇)
  rw [bootParted]
  exact ⟨_, hrun₃.tail (.switch hparent), h₇.enable hparent⟩

/-- The clone has written to its page, and the first directory reads its own value. -/
theorem boot_spaces : ∃ es s, SpaceRun bootStarted (.read 0xEF800003 7 :: es) s ∧
    PrivateMemories bootStarted.currentPageDir (.read 0xEF800003 7 :: es) s := by
  obtain ⟨es, hrun, hs⟩ := bootParted_spaces
  have hread : SpaceRun bootStarted (.read 0xEF800003 7 :: es) _ :=
    hrun.tail (.read ((hs.userAddr_iff _).mpr bootUser_user.2)
      (eq_ok_of_toOption boot_runs.2.2.2.2.2.1))
  exact ⟨es, _, hread, spaces_private bootKernel_booted bootStarted_run hread⟩

end Jkos.Page
