import Jkos.Page.Stack

/-!
# Private memories with their stacks

To each directory the user range and the kernel stack look like a memory of its own. The
kernel goes on allocating and freeing memory for its own objects meanwhile, which shows in
none of them, and the owners of the heap lose nothing to what processes do.
-/

namespace Jkos.Page

open Exec Kheap

variable {g : Layout} {K : Set Slot} {s s' t : Kernel} {p q : Slot} {F F' : Multiset Block}
  {d d' a b dest eip : Word} {v : Byte} {write : Bool}

/-- An address that each directory maps for itself. -/
def Layout.Private (g : Layout) (a : Word) : Prop := g.User (tbIdx a) ∨ StackAddr a

/-! ## Looking at stacks -/

theorem StackAddr.lookup (ha : StackAddr a) (s : Kernel) (d : Word) :
    lookup s d a = Page.lookup s d stackPage := by
  have hpage : pageOf a = pageOf stackPage := by
    rw [ha]
    decide
  obtain ⟨hidx, hoff⟩ := idx_eq_of_pageOf hpage
  rw [Page.lookup, Page.lookup, hidx, hoff]

theorem StackAddr.not_user (ha : StackAddr a) (hl : Linked g s) : ¬ g.User (tbIdx a) := by
  have hidx : tbIdx a = 1023 := by
    rw [← stackPage_idx]
    apply (idx_eq_of_pageOf _).1
    rw [ha]
    decide
  rw [hidx]
  exact hl.stack_own.2

theorem HasStack.peek (h : HasStack g s d q) (ha : StackAddr a) :
    peek s d a = some (s.phys (s.page q).addr (pageOffset a)) := by
  rw [Page.peek, ha.lookup, h.lookup]
  change (view s q).map _ = _
  rw [view, if_pos h.entry.held]
  rfl

/-- Stacks of different directories are different pages. -/
theorem HasStack.dir_eq (h : HasStack g s d q) (h' : HasStack g s d' q) (hl : Linked g s)
    (hd : d ∈ s.dirs) (hd' : d' ∈ s.dirs) : d = d' := by
  obtain ⟨-, hp, hne⟩ := hl.lookup_mem hd h.lookup
  obtain ⟨-, hp', -⟩ := hl.lookup_mem hd' h'.lookup
  have htable := (congrArg Slot.table hp).symm.trans (congrArg Slot.table hp')
  rw [stackPage_idx] at hne htable
  exact (hl.owned.unique d hd d' hd' _ _ hl.stack_own.1 hl.stack_own.1 hne htable).1

/-- No page of the user range is a stack. -/
theorem HasStack.ne_user (h : HasStack g s d q) (hl : Linked g s) (hd : d ∈ s.dirs)
    (hd' : d' ∈ s.dirs) (ha : g.User (tbIdx a)) (hlook : Page.lookup s d' a = some p) : q ≠ p := by
  rintro rfl
  obtain ⟨-, hpage⟩ := hl.eq_of_own hd' hd ha hlook h.lookup
  have hstack : StackAddr a := hpage.trans (by decide)
  exact hstack.not_user hl ha

/-- Nor is it in a table of the user range. -/
theorem HasStack.notMem_userSlots (h : HasStack g s d q) (hl : Linked g s) (hd : d ∈ s.dirs)
    (hd' : d' ∈ s.dirs) : q ∉ g.userSlots s d' := by
  rintro ⟨i, hi, he⟩
  obtain ⟨-, hp, hne⟩ := hl.lookup_mem hd h.lookup
  have htable := (congrArg Slot.table hp).symm.trans he
  rw [stackPage_idx] at hne htable
  obtain ⟨-, hidx⟩ := hl.owned.unique d hd d' hd' _ i hl.stack_own.1 hi.not_shared hne htable
  exact hl.stack_own.2 (hidx ▸ hi)

/-- A stack that is intact and stays where it is. -/
theorem HasStack.intact (h : HasStack g s d q) (hi : Intact s s' q)
    (hlook : Page.lookup s' d stackPage = Page.lookup s d stackPage)
    (htables : s.tables ⊆ s'.tables) : HasStack g s' d q :=
  ⟨hlook.trans h.lookup, h.own.steps htables, by rw [hi.page]; exact h.entry⟩

/-! ## Owners of the heap -/

/-- Work on pages of processes leaves the live pointers alone. -/
theorem Live.work {x : Chunk} {b : Block} (h : Live g s x b) (hw : Work g True K s s')
    (hK : ∀ p ∈ K, p.table ∉ g.kernel) (hs : Sound g True s) (hl : Linked g s) :
    Live g s' x b := by
  have hpage : ∀ a : Word, x.ptr.toNat - 8 ≤ a.toNat → a.toNat < x.ptr.toNat + x.size.toNat →
      Intact s s' (g.slot a) := by
    intro a h₁ h₂
    obtain ⟨hheap, -⟩ := h.heapAddr h₁ h₂
    have hk := (hl.lookup_heap hl.current hheap).2
    have hedit := hl.editable_heap hheap (h.opened a h₁ h₂).1
    have hnot : g.slot a ∉ K := fun hmem => hK _ hmem hk
    exact ⟨(hw.steps.kept hedit hnot).of_kernel hk, hw.steps.phys_kept trivial hs hedit hnot⟩
  refine ⟨h.proper, h.header, h.payload, fun a h₁ h₂ => ?_, fun k hk => ?_⟩
  · obtain ⟨hscratch, hopen⟩ := h.opened a h₁ h₂
    rw [hw.scratchPage_iff, Opened, (hpage a h₁ h₂).page]
    exact ⟨hscratch, hopen⟩
  · have hnat := h.toNat_header (k := k) hk
    have hhead := h.header
    change k < 8 at hk
    have hin : x.ptr.toNat - 8 ≤ (x.ptr - 8 + BitVec.ofNat 32 k).toNat := by omega
    have hin' : (x.ptr - 8 + BitVec.ofNat 32 k).toNat < x.ptr.toNat + x.size.toNat := by omega
    obtain ⟨hheap, -⟩ := h.heapAddr hin hin'
    have hintact := hpage _ hin hin'
    obtain ⟨hheld, hbyte⟩ := (hl.cell_iff hheap).mp (h.cells k hk)
    rw [hw.current_eq, ← hw.current_eq, (hl.congr hw.rest).cell_iff hheap, HeapCell, hintact.page,
      hintact.phys]
    exact ⟨hheld, hbyte⟩

theorem Owned.work {live : Multiset Chunk} {own : Multiset Block} (h : Owned g F live own s)
    (hw : Work g True K s s') (hK : ∀ p ∈ K, p.table ∉ g.kernel) : Owned g F live own s' := by
  have hvalid := h.valid.work hw
  have hlive : ∀ x ∈ live, Live g s' x (recorded s x.ptr) := fun x hx =>
    (h.chunks x hx).work hw hK h.valid.sound h.valid.linked
  have hold := blocks_congr hvalid.sound hvalid.linked hlive
  have hclear : Clear (blocks s' live) s := by
    rw [hold]
    exact h.clear
  refine ⟨hvalid, h.separate, fun x hx => ?_, fun a => ?_, ?_⟩
  · rw [(hlive x hx).recorded_eq hvalid.sound hvalid.linked]
    exact hlive x hx
  · rw [hold]
    exact h.tiles a
  · refine ⟨fun t ht => ?_, fun d hd => ?_, fun a ha => ?_⟩
    · rw [hw.tables_eq] at ht
      exact hclear.tables t ht
    · rw [hw.dirs_eq] at hd
      exact hclear.dirs d hd
    · exact hclear.scratch a ((hw.scratchPage_iff a).mp ha)

/-! ## The invariant -/

variable (g) in
/-- Private memories with stacks, beside the live pointers of the heap. -/
structure Memories (live : Multiset Chunk) (s : Kernel) : Prop extends Spaces g s where
  stack : ∀ d ∈ s.dirs, ∃ q, HasStack g s d q
  owned : ∃ F own, Owned g F live own s

/-- No directory sees a difference. -/
def Unseen (g : Layout) (s s' : Kernel) : Prop :=
  ∀ d ∈ s.dirs, ∀ b, g.Private b → peek s' d b = peek s d b

/-- Stacks that are intact, beside a user range for which the like is known. -/
theorem unseen_of_stacks (hstacks : ∀ d ∈ s.dirs, ∃ q, HasStack g s d q)
    (huser : ∀ d ∈ s.dirs, ∀ b, g.User (tbIdx b) → peek s' d b = peek s d b)
    (hlook : ∀ d ∈ s.dirs, lookup s' d stackPage = lookup s d stackPage)
    (hintact : ∀ d ∈ s.dirs, ∀ q, HasStack g s d q → Intact s s' q) : Unseen g s s' := by
  rintro d hd b (hb | hb)
  · exact huser d hd b hb
  · obtain ⟨q, hq⟩ := hstacks d hd
    rw [peek, peek, hb.lookup, hb.lookup, hlook d hd, hq.lookup]
    exact congrArg (Option.map _) (hintact d hd q hq).view

/-- Steps on pages of the kernel share no page of a process. -/
theorem Unshared.kernelSteps (h : Unshared s p) (hs : Sound g True s) (hs' : Sound g True s')
    (hl : Linked g s) (hp : OwnPage g s p) (hsteps : Steps g True K s s')
    (hK : K ⊆ g.kernelSlots) (htables : s'.tables = s.tables) (henv : SameEnv s s') :
    Unshared s' p := by
  have hedit := hp.editable hl
  have hintact := hsteps.spared hK hs hl p hp (Set.notMem_empty p)
  by_cases hkernel : ∃ q, Editable g s' q ∧ q.table ∈ g.kernel ∧
      (s'.page q).addr = (s'.page p).addr
  · obtain ⟨q, hq, hk, he⟩ := hkernel
    by_cases hzero : (s'.page p).addr = 0
    · exact .inl hzero
    · rw [← he] at hzero
      refine .inr ?_
      rw [← he]
      exact hs'.exclusive trivial q hq hzero (.inr hk)
  · refine h.of_holders hs.frames hs'.frames hedit (hsteps.editable hedit)
      (congrArg TableEntry.addr hintact.page) fun hheld q hq => ?_
    obtain ⟨⟨hmem, h0, h1⟩, hq⟩ := hq
    have hid : q ∉ g.identity := by
      intro hid
      have hunmanaged := (hs'.frames.identity q hid).2.1
      rw [hq] at hunmanaged
      exact hunmanaged (hedit.held hs.frames hheld).1
    have hqk : q.table ∉ g.kernel := fun hk =>
      hkernel ⟨q, ⟨⟨hmem, h0, h1⟩, hid⟩, hk, by rw [hq, hintact.page]⟩
    have hmem' : q.table ∈ s.tables := htables ▸ hmem
    have hsame := (hsteps.spared hK hs hl q ⟨hmem', hqk⟩ (Set.notMem_empty q)).page
    refine ⟨⟨hmem', ?_, ?_⟩, by rw [← hsame, hq]⟩
    · rw [← henv.empty0]
      exact h0
    · rw [← henv.empty1]
      exact h1

namespace Memories

variable {live live' : Multiset Chunk}

/-- What the kernel does with its own pages. -/
theorem kernelSteps (h : Memories g live s) (hsteps : Steps g True K s s')
    (hK : K ⊆ g.kernelSlots) (hrest : s'.rest = ({ s with heap := s'.heap } : Kernel).rest)
    (howned : ∃ F own, Owned g F live' own s') :
    Memories g live' s' ∧ SameEnv s s' ∧ s'.dirs = s.dirs ∧ Unseen g s s' := by
  have hspared := hsteps.spared hK h.sound h.linked
  have henv := SameEnv.of_rest hrest
  have hdirs : s'.dirs = s.dirs := (congrArg Kernel.dirs hrest :)
  have htables : s'.tables = s.tables := (congrArg Kernel.tables hrest :)
  have hdir : s'.dir = s.dir := (congrArg Kernel.dir hrest :)
  have hlook : ∀ d a, lookup s' d a = lookup s d a := fun d a => by rw [lookup, lookup, hdir]
  have huser : ∀ d ∈ s.dirs, ∀ a, g.User (tbIdx a) → ∀ p, lookup s d a = some p → Intact s s' p :=
    fun d hd a ha p hp => hspared p (h.linked.ownPage hd ha hp) (Set.notMem_empty p)
  obtain ⟨F, own, hown⟩ := howned
  obtain ⟨F₀, hrunning⟩ := h.running
  refine ⟨⟨⟨⟨F, hown.running (hsteps.scratched hrunning.scratched)⟩, fun d hd a ha p hp => ?_,
    fun hsingle a ha p hp => ?_⟩, fun d hd => ?_, F, own, hown⟩, henv, hdirs,
    unseen_of_stacks h.stack (fun d hd a ha => ?_) (fun d _ => hlook d _)
      fun d _ q hq => hspared q hq.own (Set.notMem_empty q)⟩
  · rw [hdirs] at hd
    rw [hlook] at hp
    rw [(huser d hd a ha p hp).page]
    exact h.entry d hd a ha p hp
  · rw [hdirs, henv.current] at hsingle
    rw [hlook, henv.current] at hp
    exact (h.unshared hsingle a ha p hp).kernelSteps h.sound hown.valid.sound h.linked
      (h.linked.ownPage h.linked.current ha hp) hsteps hK htables henv
  · rw [hdirs] at hd
    obtain ⟨q, hq⟩ := h.stack d hd
    exact ⟨q, hq.intact (hspared q hq.own (Set.notMem_empty q)) (hlook d _)
      (htables ▸ fun _ ht => ht)⟩
  · rw [peek, peek, hlook]
    cases hp : lookup s d a with
    | none => rfl
    | some p => exact congrArg (Option.map _) (huser d hd a ha p hp).view

/-- Work on one page of a process that is not a stack. -/
theorem userWork (h : Memories g live s) (hspaces : Spaces g s')
    (hlook : lookup s s.currentPageDir a = some p) (ha : g.User (tbIdx a))
    (hw : Work g True {p} s s')
    (hpage : ∀ q, Editable g s q → q ≠ p → s'.page q = s.page q) :
    Memories g live s' ∧ ∀ d ∈ s.dirs, ∀ b, StackAddr b → peek s' d b = peek s d b := by
  have hown := h.linked.ownPage h.linked.current ha hlook
  have hintact : ∀ d ∈ s.dirs, ∀ q, HasStack g s d q → Intact s s' q := by
    intro d hd q hq
    have hne := hq.ne_user h.linked hd h.linked.current ha hlook
    have hedit := hq.own.editable h.linked
    exact ⟨hpage q hedit hne, hw.steps.phys_kept trivial h.sound hedit hne⟩
  obtain ⟨F, own, howned⟩ := h.owned
  refine ⟨⟨hspaces, fun d hd => ?_, F, own, howned.work hw ?_⟩, fun d hd b hb => ?_⟩
  · rw [hw.dirs_eq] at hd
    obtain ⟨q, hq⟩ := h.stack d hd
    exact ⟨q, hq.intact (hintact d hd q hq) (hw.lookup_eq _ _) (hw.tables_eq ▸ fun _ ht => ht)⟩
  · rintro _ rfl
    exact hown.2
  · obtain ⟨q, hq⟩ := h.stack d hd
    rw [peek, peek, hb.lookup, hb.lookup, hw.lookup_eq, hq.lookup]
    exact congrArg (Option.map _) (hintact d hd q hq).view

/-! ## Switches and clones -/

theorem enable (h : Memories g live s) (hd : d ∈ s.dirs) : Memories g live (enable d s).2 := by
  obtain ⟨F, own, hown⟩ := h.owned
  refine ⟨h.toSpaces.enable hd, fun d' hd' => ?_, F, own, hown.enable hd⟩
  obtain ⟨q, hq⟩ := h.stack d' hd'
  exact ⟨q, hq.lookup, hq.own, hq.entry⟩

/-- A clone of the current directory sees what that directory sees. -/
theorem fork (h : Memories g live s)
    (hrun : cloneDirectory s.currentPageDir s = (.ok dest, s')) :
    Memories g live s' ∧ s'.currentPageDir = s.currentPageDir ∧ dest ∉ s.dirs ∧
      s'.dirs = dest :: s.dirs ∧
      (∀ a, g.Private a → peek s' dest a = peek s s.currentPageDir a) ∧ Unseen g s s' := by
  have hcur := h.linked.current
  obtain ⟨hspaces, hcur', hfresh, hdirs, hnew, hold⟩ := h.toSpaces.fork hcur hrun
  obtain ⟨F, own, hown⟩ := h.owned
  obtain ⟨F₀, hrunning⟩ := h.running
  have hrunning' := hown.running hrunning.scratched
  obtain ⟨F', hcloned⟩ := (cloneDirectory_ends hrunning' hcur).ok hrun
  obtain ⟨q, hq⟩ := h.stack _ hcur
  have hbuilt := (cloneDirectory_stack hrunning' hcur hq).ok hrun
  have hlook : ∀ d ∈ s.dirs, lookup s' d stackPage = lookup s d stackPage := fun d hd => by
    rw [lookup, lookup, hcloned.others d fun e => hfresh (e ▸ hd)]
  have hintact : ∀ d ∈ s.dirs, ∀ q, HasStack g s d q → Intact s s' q := fun d hd q hq =>
    hbuilt.spared q hq.own (hq.notMem_userSlots h.linked hd hcur)
  obtain ⟨p, hp⟩ := hbuilt.copy
  have hstack : HasStack g s' dest p := ⟨hp.lookup, hp.own, hp.entry⟩
  refine ⟨⟨hspaces, fun d hd => ?_, F', hown.grown hcloned.grown⟩, hcur', hfresh, hdirs, ?_,
    unseen_of_stacks h.stack hold hlook hintact⟩
  · rw [hdirs, List.mem_cons] at hd
    obtain rfl | hd := hd
    · exact ⟨p, hstack⟩
    · obtain ⟨q', hq'⟩ := h.stack d hd
      exact ⟨q', hq'.intact (hintact d hd q' hq') (hlook d hd) hcloned.grown.tables⟩
  · rintro a (ha | ha)
    · exact hnew a ha
    · rw [hstack.peek ha, hq.peek ha, hp.bytes]

/-! ## Reads and writes -/

/-- The kernel accesses its stack without a fault. -/
theorem stack_access (h : Memories g live s) (hq : HasStack g s s.currentPageDir q)
    (ha : StackAddr a) (heip : eip < s.kernelCodeEnd) :
    access a write eip s = (.ok (s.page q).addr, s) := by
  have hedit := hq.own.editable h.linked
  have hheld := hq.entry.held
  have hlook : lookup s s.currentPageDir a = some q := (ha.lookup _ _).trans hq.lookup
  have hgrant : Granted s q write eip :=
    ⟨⟨(h.sound.shaped q hedit).2 hheld, .inr heip⟩, fun _ => .inl hq.entry.rw⟩
  have hwalk := walk_of_held h.sound hlook hedit hgrant hheld
  rw [if_neg fun hw => absurd (hq.entry.rw.symm.trans hw.2) (by decide)] at hwalk
  have hfuel : loopBound = (loopBound - 1) + 1 := by decide
  rw [access, hfuel, accessLoop_of_walk hwalk]

/-- User code does not. -/
theorem stack_guarded (h : Memories g live s) (ha : StackAddr a) (heip : s.kernelCodeEnd ≤ eip) :
    access a write eip s = (.error (.pageFault a (errCodeOf true write true)), s) := by
  obtain ⟨q, hq⟩ := h.stack _ h.linked.current
  have hlook : lookup s s.currentPageDir a = some q := (ha.lookup _ _).trans hq.lookup
  have hpresent : (s.page q).present = true :=
    (h.sound.shaped q (hq.own.editable h.linked)).1.mpr hq.entry.held
  have hwalk : walk s a write (decide (s.kernelCodeEnd ≤ eip)) =
      .error (errCodeOf true write true) := by
    simp [walk, hlook, hpresent, hq.entry.user, heip]
  have hclosed : ¬ Open s q eip := by
    rintro ⟨-, huser | hlt⟩
    · exact absurd (hq.entry.user.symm.trans huser) (by decide)
    · exact absurd hlt (BitVec.not_lt.mpr heip)
  have hfuel : loopBound = (loopBound - 1) + 1 := by decide
  rw [access, hfuel, accessLoop_of_fault hwalk, bind_error (pageFault_of_closed hlook hclosed)]

theorem eip_lt (h : Memories g live s) (ha : StackAddr a) {f : Frame}
    (hrun : Page.access a write eip s = (.ok f, t)) : eip < s.kernelCodeEnd := by
  by_contra heip
  cases (h.stack_guarded ha (BitVec.not_lt.mp heip)).symm.trans hrun

theorem readByte (h : Memories g live s) (ha : g.Private a)
    (hrun : readByte a eip s = (.ok v, s')) :
    Memories g live s' ∧ s'.currentPageDir = s.currentPageDir ∧ s'.dirs = s.dirs ∧
      peek s s.currentPageDir a = some v ∧ Unseen g s s' := by
  have hcur := h.linked.current
  rcases ha with ha | ha
  · obtain ⟨hspaces, hcur', hdirs, hv, huser⟩ := h.toSpaces.readByte ha hrun
    obtain ⟨f, t, haccess, hread⟩ := bind_eq_ok hrun
    cases hread
    obtain ⟨p, hlook, hp, hacc, hw, -⟩ := h.toSpaces.access ha haccess
    obtain ⟨hmem, hstack⟩ := h.userWork hspaces hlook ha hw fun q hq hne =>
      hacc.faults.page_other h.sound hp hq hne
    exact ⟨hmem, hcur', hdirs, hv, fun d hd b hb => hb.elim (huser d hd b) (hstack d hd b)⟩
  · obtain ⟨q, hq⟩ := h.stack _ hcur
    obtain ⟨f, t, haccess, hread⟩ := bind_eq_ok hrun
    cases (h.stack_access hq ha (h.eip_lt ha haccess)).symm.trans haccess
    cases hread
    exact ⟨h, rfl, rfl, hq.peek ha, fun _ _ _ _ => rfl⟩

/-- A write to the stack is the write of one byte of its frame. -/
theorem stack_write (h : Memories g live s) (hq : HasStack g s s.currentPageDir q)
    (ha : StackAddr a) :
    Memories g live (s.setByte (s.page q).addr (pageOffset a) v) ∧
      peek (s.setByte (s.page q).addr (pageOffset a) v) s.currentPageDir a = some v ∧
      ∀ d ∈ s.dirs, ∀ b, g.Private b → (d = s.currentPageDir → b ≠ a) →
        peek (s.setByte (s.page q).addr (pageOffset a) v) d b = peek s d b := by
  have hcur := h.linked.current
  have hedit := hq.own.editable h.linked
  have hone := h.sound.exclusive trivial q hedit hq.entry.held (.inl hq.entry.rw)
  set s' := s.setByte (s.page q).addr (pageOffset a) v with hs'
  have hw : Work g True {q} s s' :=
    .single (.write q _ rfl hedit hq.entry.held fun _ => .inr hone) rfl
  have hphys : s'.phys (s.page q).addr = fun o => if o = pageOffset a then v else
      s.phys (s.page q).addr o := if_pos rfl
  obtain ⟨F₀, hrunning⟩ := h.running
  obtain ⟨F, own, hown⟩ := h.owned
  have hstack : ∀ d q', HasStack g s d q' → HasStack g s' d q' := fun d q' hq' =>
    ⟨hq'.lookup, hq'.own, hq'.entry⟩
  have hshow := (hstack _ q hq).peek ha
  refine ⟨⟨⟨⟨F₀, hrunning.work hw⟩, h.entry, h.unshared⟩, fun d hd => ?_, F, own, hown.work hw ?_⟩,
    ?_, fun d hd b hb hne => ?_⟩
  · obtain ⟨q', hq'⟩ := h.stack d hd
    exact ⟨q', hstack d q' hq'⟩
  · rintro _ rfl
    exact hq.own.2
  · rw [hshow]
    exact congrArg some ((congrFun hphys _).trans (if_pos rfl))
  · have hother : ∀ x, lookup s d b = some x → x ≠ q → OwnPage g s x → peek s' d b = peek s d b :=
      fun x hx hxq hown => hw.peek_eq trivial h.sound hx (hown.editable h.linked) hxq
    rcases hb with hb | hb
    · cases hx : lookup s d b with
      | none => rw [peek, peek, hw.lookup_eq, hx]; rfl
      | some x =>
          exact hother x hx (hq.ne_user h.linked hcur hd hb hx).symm (h.linked.ownPage hd hb hx)
    · obtain ⟨q', hq'⟩ := h.stack d hd
      rcases eq_or_ne q' q with rfl | hne'
      · -- the byte is another one of the same page
        have hd' := hq'.dir_eq hq h.linked hd hcur
        have hpage : pageOf b = pageOf a := hb.trans ha.symm
        have hoff : pageOffset b ≠ pageOffset a := fun e => hne hd' (eq_of_pageOf hpage e)
        rw [(hstack d q' hq').peek hb, hq'.peek hb]
        exact congrArg some ((congrFun hphys _).trans (if_neg hoff))
      · exact hother q' ((hb.lookup s d).trans hq'.lookup) hne' hq'.own

theorem writeByte (h : Memories g live s) (ha : g.Private a)
    (hrun : writeByte a v eip s = (.ok (), s')) :
    Memories g live s' ∧ s'.currentPageDir = s.currentPageDir ∧ s'.dirs = s.dirs ∧
      peek s' s.currentPageDir a = some v ∧
      ∀ d ∈ s.dirs, ∀ b, g.Private b → (d = s.currentPageDir → b ≠ a) →
        peek s' d b = peek s d b := by
  have hcur := h.linked.current
  rcases ha with ha | ha
  · obtain ⟨hspaces, hcur', hdirs, hself, huser⟩ := h.toSpaces.writeByte ha hrun
    obtain ⟨f, t, haccess, hwrite⟩ := bind_eq_ok hrun
    cases hwrite
    obtain ⟨p, hlook, hp, hacc, hw, hspaces₁, -⟩ := h.toSpaces.access ha haccess
    have hheld : (t.page p).addr ≠ 0 := hacc.addr ▸ hacc.held
    have hone : t.frameRefCnt f = 1 := by
      rw [← hacc.addr]
      exact hspaces₁.sound.exclusive trivial p (hw.steps.editable hp) hheld
        (.inl (hacc.writable rfl))
    have hstep : Work g True {p} t (t.setByte f (pageOffset a) v) := by
      rw [← hacc.addr] at hone ⊢
      exact .single (.write p _ rfl (hw.steps.editable hp) hheld fun _ => .inr hone) rfl
    obtain ⟨hmem, hstack⟩ := h.userWork hspaces hlook ha (hw.trans hstep) fun q hq hne =>
      hacc.faults.page_other h.sound hp hq hne
    exact ⟨hmem, hcur', hdirs, hself, fun d hd b hb hne =>
      hb.elim (fun hb => huser d hd b hb hne) (hstack d hd b)⟩
  · obtain ⟨q, hq⟩ := h.stack _ hcur
    obtain ⟨f, t, haccess, hwrite⟩ := bind_eq_ok hrun
    cases (h.stack_access hq ha (h.eip_lt ha haccess)).symm.trans haccess
    cases hwrite
    obtain ⟨hmem, hself, hother⟩ := h.stack_write hq ha (v := v)
    exact ⟨hmem, rfl, rfl, hself, hother⟩

/-! ## Setting up pages -/

theorem getPage (h : Memories g live s)
    (hrun : getPageWith kmalloc s.currentPageDir a s = (.ok p, t)) (ha : g.User (tbIdx a)) :
    Memories g live t ∧ t.currentPageDir = s.currentPageDir ∧ t.dirs = s.dirs ∧
      lookup t s.currentPageDir a = some p ∧ Unseen g s t := by
  have hcur := h.linked.current
  obtain ⟨hspaces, hcur', hdirs, hlook, huser⟩ := h.toSpaces.getPage hrun
  rcases hold : lookup s s.currentPageDir a with _ | q
  swap
  · rw [getPageWith_of_lookup hold] at hrun
    cases hrun
    exact ⟨h, rfl, rfl, hold, fun _ _ _ _ => rfl⟩
  have hnull : (s.dir s.currentPageDir).tables (tbIdx a) = null := by
    by_contra hne
    rw [lookup, if_neg hne] at hold
    exact absurd hold (by simp)
  obtain ⟨F, own, hown⟩ := h.owned
  obtain ⟨F₀, hrunning⟩ := h.running
  have hrunning' := hown.running hrunning.scratched
  obtain ⟨F', src, hmade, -⟩ := (getPageWith_ends hrunning' ha.not_shared hnull).ok hrun
  have hspared := (getPageWith_spared hrunning' ha.not_shared hnull).ok hrun
  have hidx : tbIdx stackPage ≠ tbIdx a := fun e => by
    rw [stackPage_idx] at e
    exact h.linked.stack_own.2 (e ▸ ha)
  have hsame : ∀ d, lookup t d stackPage = lookup s d stackPage := by
    intro d
    rw [lookup, lookup, hmade.dir]
    rcases eq_or_ne d s.currentPageDir with rfl | hne
    · have htable : ∀ x : Directory, ∀ f, (x.withTable (tbIdx a) src f).tables (tbIdx stackPage) =
          x.tables (tbIdx stackPage) := fun x f => if_neg hidx
      rw [Kernel.dir_setDir_self, htable]
    · rw [Kernel.dir_setDir_of_ne _ _ hne]
  have hintact : ∀ d ∈ s.dirs, ∀ q, HasStack g s d q → Intact s t q := fun d _ q hq =>
    hspared q hq.own (Set.notMem_empty q)
  refine ⟨⟨hspaces, fun d hd => ?_, F', hown.grown hmade.grown⟩, hcur', hdirs, hlook,
    unseen_of_stacks h.stack huser (fun d _ => hsame d) hintact⟩
  rw [hdirs] at hd
  obtain ⟨q, hq⟩ := h.stack d hd
  exact ⟨q, hq.intact (hintact d hd q hq) (hsame d) hmade.grown.tables⟩

section Provide

variable (h : Memories g live s) (hlook : lookup s s.currentPageDir a = some p)
  (ha : g.User (tbIdx a)) (hsingle : s.dirs = [s.currentPageDir])
include h hlook ha hsingle

omit hsingle in
/-- A page of the user range gets contents. -/
theorem provide {bytes : BitVec 12 → Byte} (hspaces : Spaces g s') (hw : Work g True {p} s s')
    (hview : view s' p = some bytes)
    (hpage : ∀ q, Editable g s q → q ≠ p → s'.page q = s.page q) :
    Memories g live s' ∧ ∀ b, g.Private b →
      peek s' s.currentPageDir b = (pageContents a bytes b).or (peek s s.currentPageDir b) := by
  obtain ⟨hmem, hstack⟩ := h.userWork hspaces hlook ha hw hpage
  refine ⟨hmem, fun b hb => ?_⟩
  rcases hb with hb | hb
  · exact h.toSpaces.provided hlook hw hview hb
  · have hne : pageOf b ≠ pageOf a := fun e =>
      StackAddr.not_user (e.symm.trans hb : StackAddr a) h.linked ha
    rw [pageContents, if_neg hne, Option.none_or]
    exact hstack _ h.linked.current b hb

theorem alloc (hrun : Page.alloc p true true s = (.ok (), s')) :
    Memories g live s' ∧ s'.currentPageDir = s.currentPageDir ∧ s'.dirs = s.dirs ∧
      ((s.page p).addr ≠ 0 → Unseen g s s') ∧ ∀ b, g.Private b → peek s' s.currentPageDir b =
        (pageContents a (s'.phys (s'.page p).addr) b).or (peek s s.currentPageDir b) := by
  obtain ⟨hspaces, hw, hheld, hview⟩ := h.toSpaces.alloc hlook ha hsingle hrun
  have hpage : ∀ q, Editable g s q → q ≠ p → s'.page q = s.page q := by
    intro q _ hne
    obtain ⟨-, rfl⟩ | ⟨-, f, rest, -, rfl⟩ := (alloc_ends s p true true).ok hrun
    · exact Kernel.page_setEntry_of_ne _ _ hne
    · exact Kernel.page_setEntry_of_ne _ _ hne
  obtain ⟨hmem, hshow⟩ := h.provide hlook ha hspaces hw hview hpage
  obtain ⟨-, hstack⟩ := h.userWork hspaces hlook ha hw hpage
  exact ⟨hmem, hw.current_eq, hw.dirs_eq, fun hne d hd b hb =>
    hb.elim (h.toSpaces.peek_eq hw (hheld hne) d hd b) (hstack d hd b), hshow⟩

theorem lazyAlloc (hrun : Page.lazyAlloc p true true true s = (.ok (), s')) :
    Memories g live s' ∧ s'.currentPageDir = s.currentPageDir ∧ s'.dirs = s.dirs ∧
      ∀ b, g.Private b → peek s' s.currentPageDir b =
        (pageContents a (fun _ => 0) b).or (peek s s.currentPageDir b) := by
  obtain ⟨hspaces, hw, hview⟩ := h.toSpaces.lazyAlloc hlook ha hsingle hrun
  have hpage : ∀ q, Editable g s q → q ≠ p → s'.page q = s.page q := by
    intro q hq hne
    by_cases hzero : (s.page p).addr = 0
    · rw [lazyAlloc_of_zero hzero] at hrun
      cases hrun
      exact Kernel.page_setEntry_of_ne _ _ hne
    · rw [lazyAlloc_of_held hzero, fillUint32_apply] at hrun
      cases hrun
      have hq' : Editable g (s.setEntry p ({ · with rw := true, user := true })) q :=
        ⟨hq.counted, hq.ordinary⟩
      exact (page_scratched hq' _).trans (Kernel.page_setEntry_of_ne _ _ hne)
  obtain ⟨hmem, hshow⟩ := h.provide hlook ha hspaces hw hview hpage
  exact ⟨hmem, hw.current_eq, hw.dirs_eq, hshow⟩

end Provide

end Memories

/-! ## The first stack -/

/-- `move_stack`, up to the copy of the old stack: the current directory gets its page. -/
def moveStack : Prog Unit := do
  let d ← read (·.currentPageDir)
  allocInterval d (kernelStackPos - kernelStackSize) kernelStackPos false true

theorem moveStack_apply (s : Kernel) : moveStack s =
    (do let p ← getPageWith kmalloc s.currentPageDir stackPage
        alloc p false true : Prog Unit) s := by
  have hfuel : loopBound = (loopBound - 2) + 1 + 1 := by decide
  have hlt : kernelStackPos - kernelStackSize < kernelStackPos := by decide
  have hend : ¬ kernelStackPos - kernelStackSize + 0x1000 < kernelStackPos := by decide
  rw [moveStack, bind_apply, read_apply]
  change allocIntervalWith kmalloc s.currentPageDir _ _ false true s = _
  rw [allocIntervalWith, interval, if_pos (by decide), hfuel, forPages, if_pos hlt]
  simp only [forPages, if_neg hend]
  exact congrFun (bind_pure_self _) s

theorem Spaces.moveStack {live : Multiset Chunk} (h : Spaces g s)
    (howned : ∃ F own, Owned g F live own s) (hsingle : s.dirs = [s.currentPageDir])
    (hnull : (s.dir s.currentPageDir).tables 1023 = null)
    (hrun : moveStack s = (.ok (), s')) :
    Memories g live s' ∧ s'.currentPageDir = s.currentPageDir ∧ s'.dirs = s.dirs ∧
      ∀ b, g.User (tbIdx b) → peek s' s.currentPageDir b = peek s s.currentPageDir b := by
  have hi := h.linked.stack_own.1
  rw [← stackPage_idx] at hi hnull
  obtain ⟨F, own, hown⟩ := howned
  obtain ⟨F₀, hrunning⟩ := h.running
  have hrunning' := hown.running hrunning.scratched
  rw [moveStack_apply] at hrun
  obtain ⟨p, t, hget, halloc⟩ := bind_eq_ok hrun
  obtain ⟨ht, hcur, hdirs, hlook, hpeek⟩ := h.getPage hget
  obtain ⟨F', src, hmade, rfl⟩ := (getPageWith_ends hrunning' hi hnull).ok hget
  set p : Slot := ⟨src, tbOffset stackPage⟩ with hp
  have hzero : (t.page p).addr = 0 := by
    rw [hmade.zero]
    rfl
  have hownp : OwnPage g t p :=
    ⟨hmade.tables ▸ List.mem_cons_self, hown.valid.notMem_kernel hmade.fresh⟩
  have hedit := hownp.editable ht.linked
  have hall := (alloc_ends t p false true).ok halloc
  have hw : Work g True {p} t s' := hall.work rfl hedit fun _ _ hheld => absurd hzero hheld
  obtain ⟨hheld, hrw, huser, -⟩ := hall.page_self ht.sound.frames
  obtain ⟨f, rest, hframes, hs'⟩ := (hall.resolve_left fun hheld => hheld.1 hzero).2
  have hstack : HasStack g s' s.currentPageDir p := by
    refine ⟨?_, ?_, hheld, hrw, huser⟩
    · rw [hw.lookup_eq]
      exact hlook
    · rw [OwnPage, hw.tables_eq]
      exact hownp
  -- the page is not one of the user range
  have hne : ∀ {d a q}, d ∈ t.dirs → g.User (tbIdx a) → lookup t d a = some q → q ≠ p := by
    rintro d a _ hd ha hq rfl
    have hd' : s.currentPageDir ∈ t.dirs := hcur ▸ ht.linked.current
    obtain ⟨-, hpage⟩ := ht.linked.eq_of_own hd hd' ha hq hlook
    exact StackAddr.not_user (hpage.trans (by decide) : StackAddr a) ht.linked ha
  obtain ⟨F₁, hrun₁⟩ := ht.running
  obtain ⟨own', hown'⟩ := hown.grown hmade.grown
  refine ⟨⟨⟨⟨F₁, hrun₁.work hw⟩, fun d hd a ha q hq => ?_, fun hone a ha q hq => ?_⟩,
    fun d hd => ?_, F', own', hown'.work hw ?_⟩, hw.current_eq.trans hcur, hw.dirs_eq.trans hdirs,
    fun b hb => ?_⟩
  · rw [hw.dirs_eq] at hd
    rw [hw.lookup_eq] at hq
    rw [hs', taken, Kernel.page_setEntry_of_ne _ _ (hne hd ha hq)]
    exact ht.entry d hd a ha q hq
  · rw [hw.dirs_eq, hw.current_eq] at hone
    rw [hw.lookup_eq, hw.current_eq] at hq
    refine (ht.unshared hone a ha q hq).work ht.sound hw
      (ht.editable ht.linked.current ha hq) (hne ht.linked.current ha hq) (.inr ?_)
    rw [hs', page_taken, hframes]
    exact List.mem_cons_self
  · rw [hw.dirs_eq, hdirs, hsingle, List.mem_singleton] at hd
    rw [hd]
    exact ⟨p, hstack⟩
  · rintro _ rfl
    exact hownp.2
  · rw [← hpeek _ h.linked.current b hb, peek, peek, hw.lookup_eq]
    have hd' : s.currentPageDir ∈ t.dirs := hcur ▸ ht.linked.current
    cases hq : lookup t s.currentPageDir b with
    | none => rfl
    | some q =>
        exact congrArg (Option.map _) (hw.steps.view_eq trivial ht.sound
          (ht.editable hd' hb hq) (hne hd' hb hq))

end Jkos.Page
