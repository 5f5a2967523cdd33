import Jkos.Page.Spaces

/-!
# Kernel stacks

The page below `KERNEL_STACK_POS` is the stack of the kernel. It is mapped by a table that
each directory has for itself, and a clone gets a copy of the page at once: a fault on the
stack could not be served, because serving it takes a stack. So the page has to be there and
writable whenever a directory exists, and nothing but the code that runs on it may change it.
-/

namespace Jkos.Page

open Exec Kheap

variable {g : Layout} {c : Prop} {K : Set Slot} {s s' s'' t u : Kernel} {p q : Slot}
  {F F' F'' : Multiset Block} {d d' a b src dest : Word} {i : BitVec 10}

/-- The page of the kernel stack. -/
def stackPage : Word := kernelStackPos - kernelStackSize

/-- An address of the kernel stack. -/
def StackAddr (a : Word) : Prop := pageOf a = stackPage

/-- The page has a frame, and only the kernel may access it. -/
structure StackEntry (e : TableEntry) : Prop where
  held : e.addr ≠ 0
  rw : e.rw = true
  user : e.user = false

/-! ## Pages that nothing touches -/

/-- The entry is as it was, and so are the bytes of its frame. -/
structure Intact (s s' : Kernel) (p : Slot) : Prop where
  page : s'.page p = s.page p
  phys : s'.phys (s.page p).addr = s.phys (s.page p).addr

namespace Intact

theorem refl : Intact s s p := ⟨rfl, rfl⟩

theorem trans (h : Intact s s' p) (h' : Intact s' s'' p) : Intact s s'' p := by
  refine ⟨h'.page.trans h.page, ?_⟩
  rw [← h.phys, ← h.page]
  exact h'.phys

theorem view (h : Intact s s' p) : view s' p = view s p := by
  rw [Page.view, Page.view, h.page, h.phys]

end Intact

variable (g) in
/-- The pages of the tables of processes are intact, but for those in `K`. -/
def Spared (K : Set Slot) (s s' : Kernel) : Prop := ∀ p, OwnPage g s p → p ∉ K → Intact s s' p

theorem OwnPage.steps (h : OwnPage g s p) (hsub : s.tables ⊆ s'.tables) : OwnPage g s' p :=
  ⟨hsub h.1, h.2⟩

namespace Spared

theorem refl : Spared g K s s := fun _ _ _ => .refl

theorem trans (h : Spared g K s s') (h' : Spared g K s' s'') (hsub : s.tables ⊆ s'.tables) :
    Spared g K s s'' :=
  fun p hp hK => (h p hp hK).trans (h' p (hp.steps hsub) hK)

theorem mono {K' : Set Slot} (h : Spared g K s s') (hK : K ⊆ K') : Spared g K' s s' :=
  fun p hp hnot => h p hp fun hmem => hnot (hK hmem)

/-- Neither entries nor memory differ. -/
theorem of_eq (hpage : s'.page = s.page) (hphys : s'.phys = s.phys) : Spared g K s s' :=
  fun _ _ _ => ⟨by rw [hpage], by rw [hphys]⟩

end Spared

/-- Steps on tables of the kernel leave the other entries alone. -/
theorem Step.page_eq (h : Step g c K s s') (hK : K ⊆ g.kernelSlots) (hp : Editable g s p)
    (hk : p.table ∉ g.kernel) : s'.page p = s.page p := by
  have hne : ∀ {q}, q ∈ K → p ≠ q := fun hq e => hk (e ▸ hK hq)
  cases h with
  | other frames ref page tables phys empty0 empty1 => rw [page]
  | scratch q f hq =>
      have hne : p ≠ q := by
        rcases hq with rfl | rfl
        · exact hp.counted.2.1
        · exact hp.counted.2.2
      exact Kernel.page_setEntry_of_ne _ _ hne
  | flags q m inside hq addr shape sole => exact Kernel.page_setEntry_of_ne _ _ (hne inside)
  | write q bytes inside hq held sole => rfl
  | take q f rest m inside hq top zero addr present allocable =>
      exact Kernel.page_setEntry_of_ne _ _ (hne inside)
  | replace q f rest m inside hq top held many addr present allocable =>
      exact Kernel.page_setEntry_of_ne _ _ (hne inside)
  | free q inside hq =>
      by_cases hzero : (s.page q).addr = 0
      · rw [free_of_zero hzero]
      · by_cases hone : s.frameRefCnt (s.page q).addr = 1
        · rw [free_of_one hzero hone]
          exact Kernel.page_setEntry_of_ne _ _ (hne inside)
        · rw [free_of_many hzero hone]
          exact Kernel.page_setEntry_of_ne _ _ (hne inside)
  | newTable t inside fresh aligned =>
      exact if_neg fun e : p.table = t => fresh (e ▸ hp.counted.1)
  | share dest src i inside hdest hsrc destUser srcUser zero held =>
      exact absurd (hK inside) destUser

theorem Steps.page_eq (h : Steps g c K s s') (hK : K ⊆ g.kernelSlots) (hp : Editable g s p)
    (hk : p.table ∉ g.kernel) : s'.page p = s.page p := by
  induction h with
  | refl => rfl
  | tail hsteps hstep ih => exact (hstep.page_eq hK (Steps.editable hsteps hp) hk).trans ih

theorem Steps.spared (h : Steps g True K s s') (hK : K ⊆ g.kernelSlots) (hs : Sound g True s)
    (hl : Linked g s) : Spared g ∅ s s' := by
  intro p hp _
  have hedit := hp.editable hl
  exact ⟨h.page_eq hK hedit hp.2, h.phys_kept trivial hs hedit fun hmem => hp.2 (hK hmem)⟩

/-- Clearing memory of the heap. -/
theorem memset_spared {start : Word} {n : Nat} (hs : Sound g True s) (hl : Linked g s)
    (hfits : start.toNat + n ≤ 2 ^ 32) (hopen : OpenRange g s start n) (val : Byte) :
    Ends (memset start val n) s (fun _ s' => Spared g ∅ s s' ∧ s'.rest = s.rest)
      (fun _ _ => True) := by
  refine (memset_ends hs hl hfits hopen val).mono (fun _ s' hz => ⟨?_, hz.touch.work.rest⟩)
    (fun _ _ _ => trivial)
  refine hz.touch.work.steps.spared ?_ hs hl
  rintro _ ⟨a, h₁, h₂, rfl⟩
  exact (hl.lookup_heap hl.current (hopen a h₁ h₂).1).2

/-- A new table is none of the tables there are. -/
theorem newTable_spared (hfresh : src ∉ s.tables) : Spared g K s (newTable src s).2 := by
  intro p hp _
  exact ⟨if_neg fun e : p.table = src => hfresh (e ▸ hp.1), rfl⟩

theorem Malloced.spared {size start : Word} {palign : Nat} {got : Block}
    (hm : Malloced g True F F' size palign start got s s') (h : Valid g True F s) :
    Spared g ∅ s s' :=
  hm.steps.spared subset_rfl h.sound h.linked

/-- The memory of a new table is taken and cleared. -/
theorem newTable_clear {s₁ s₂ : Kernel} {got : Block}
    (hm : Malloced g True F F' sizeofTable 12 src got s s₁) (h : Running g True F s)
    (hg : Grown g True F F' s s₂) (hpage : s₂.page = (newTable src s₁).2.page)
    (hphys : s₂.phys = s₁.phys) :
    Ends (memset src 0 sizeofTable.toNat) s₂ (fun _ s' => Spared g ∅ s s') (fun _ _ => True) := by
  obtain ⟨-, hfresh, -⟩ := hm.newTable_fresh h
  have hbounds := hm.heapAddr
  rw [show sizeofTable.toNat = 4096 from rfl] at hbounds
  have htables : s.tables ⊆ s₁.tables := (hm.grown h.toValid).tables
  have hfirst : Spared g ∅ s s₂ := by
    refine (hm.spared h.toValid).trans (fun p hp hK => ?_) htables
    have hnew := newTable_spared (K := ∅) hfresh p hp hK
    exact ⟨by rw [hpage]; exact hnew.page, by rw [hphys]⟩
  refine (memset_spared hg.valid.sound hg.valid.linked
    (by rw [show sizeofTable.toNat = 4096 from rfl]; omega) (newTable_open hm h hg hpage) 0).mono
    (fun _ s' hclear => ?_) (fun _ _ h => h)
  exact hfirst.trans hclear.1 hg.tables

theorem getPageWith_spared (h : Running g True F s) (hi : ¬ g.Shared (tbIdx a))
    (hnull : (s.dir d).tables (tbIdx a) = null) :
    Ends (getPageWith kmalloc d a) s (fun _ s' => Spared g ∅ s s') (fun _ _ => True) := by
  rw [getPageWith, Ends.bind_read, if_pos hnull]
  refine Ends.bind ((kmalloc_ends h.toValid (by decide) (by decide)).mono (fun _ _ h => h)
    fun _ _ _ => trivial) ?_
  rintro t s₁ ⟨F', got, hm⟩
  refine (Ends.bind_of_ok (modify_apply _ _)).mpr ((Ends.bind_of_ok (modify_apply _ _)).mpr ?_)
  refine Ends.bind (newTable_clear hm h (hm.linkTable h hi d) rfl rfl) ?_
  rintro - s₃ hspared
  rw [Ends.bind_read]
  obtain ⟨w, hw⟩ := getPhysicalAddr_reads s₃ s₃.currentPageDir t false true
  refine (Ends.bind_of_ok hw).mpr ((Ends.bind_of_ok (modify_apply _ _)).mpr ?_)
  exact fun p hp hK => ⟨(hspared p hp hK).page, (hspared p hp hK).phys⟩

/-! ## Cloning -/

/-- The entries of a table. -/
def tableSlots (t : Word) : Set Slot := {p | p.table = t}

theorem cloneEntry_intact (hsrc : p.table ≠ src) (hdest : p.table ≠ dest) :
    Intact s (cloneEntry dest src i s).2 p := by
  have hs : p ≠ ⟨src, i⟩ := fun e => hsrc (congrArg Slot.table e)
  have hd : p ≠ ⟨dest, i⟩ := fun e => hdest (congrArg Slot.table e)
  by_cases hheld : (s.page ⟨src, i⟩).addr = 0
  · have he : (cloneEntry dest src i s).2 = s.setEntry ⟨dest, i⟩ (fun _ => s.page ⟨src, i⟩) :=
      if_pos hheld
    rw [he]
    exact ⟨Kernel.page_setEntry_of_ne _ _ hd, rfl⟩
  · rw [cloneEntry_of_held hheld]
    refine ⟨?_, rfl⟩
    rw [Kernel.page_setRef, Kernel.page_setEntry_of_ne _ _ hd, Kernel.page_setEntry_of_ne _ _ hs]

theorem cloneEntries_spared (src : Word) (hfresh : dest ∉ s.tables) (cnt : Nat)
    (hspared : Spared g (tableSlots src) s t) :
    Ends (forIdx (cloneEntry dest src) cnt 0) t
      (fun _ u => Spared g (tableSlots src) s u) (fun _ _ => True) := by
  refine forIdx_ends (fun _ u => Spared g (tableSlots src) s u) (fun n u _ _ hu => ?_) hspared
  refine .of_ok (modify_apply _ _) fun p hp hK => (hu p hp hK).trans ?_
  exact cloneEntry_intact hK fun e => hfresh (e ▸ hp.1)

/-- `clone_table` leaves all pages alone but those of its source. -/
theorem cloneTable_spared (h : Running g True F s) (src : Word) :
    Ends (cloneTable src) s (fun _ s' => Spared g (tableSlots src) s s') (fun _ _ => True) := by
  obtain ⟨cnt, hcnt⟩ : ∃ cnt, cnt = 1024 := ⟨_, rfl⟩
  rw [cloneTable, ← hcnt]
  refine Ends.bind ((kmalloc_ends h.toValid (by decide) (by decide)).mono (fun _ _ h => h)
    fun _ _ _ => trivial) ?_
  rintro dest s₁ ⟨F', got, hm⟩
  refine (Ends.bind_of_ok (modify_apply _ _)).mpr ?_
  refine Ends.bind (newTable_clear hm h (hm.newTable_grown h) rfl rfl) ?_
  rintro - s₂ hspared
  refine Ends.bind (cloneEntries_spared src (hm.newTable_fresh h).1 cnt
    (hspared.mono (Set.empty_subset _))) ?_
  exact fun _ _ hspared' => hspared'

/-- The directory `d` of `u` has a page for the stack, in a table that did not exist in `s`,
with these bytes. -/
structure StackCopy (g : Layout) (s : Kernel) (bytes : BitVec 12 → Byte) (d : Word) (u : Kernel)
    (p : Slot) : Prop where
  lookup : lookup u d stackPage = some p
  own : OwnPage g u p
  fresh : p.table ∉ s.tables
  entry : StackEntry (u.page p)
  bytes : u.phys (u.page p).addr = bytes

/-- The page of a new table. -/
theorem Made.lookup {t : Word} (hm : Made g c F F' d (tbIdx a) t s s') :
    lookup s' d a = some ⟨t, tbOffset a⟩ := by
  have htable : (s'.dir d).tables (tbIdx a) = t := by
    rw [hm.dir, Kernel.dir_setDir_self]
    exact if_pos rfl
  rw [Page.lookup, htable, if_neg hm.ne_null]

theorem stackPage_idx : tbIdx stackPage = 1023 := stackIdx

theorem frameAddr_or_stack (f : Frame) : frameAddr f ||| (stackPage &&& 0xFFF) = frameAddr f :=
  BitVec.or_zero

/-- The stack page of the current directory is `q`. -/
structure HasStack (g : Layout) (s : Kernel) (d : Word) (q : Slot) : Prop where
  lookup : lookup s d stackPage = some q
  own : OwnPage g s q
  entry : StackEntry (s.page q)

/-- `copy_page_physical` from one page to another. -/
theorem copyPagePhysical_spared (h : Running g True F s) (hp : OwnPage g s p)
    (hentry : StackEntry (s.page p)) (f₀ : Frame) :
    Ends (copyPagePhysical (frameAddr (s.page p).addr) (frameAddr f₀)) s
      (fun _ u => Spared g {p} s u ∧ u.rest = s.rest ∧ u.page p = s.page p ∧
        u.phys (s.page p).addr = s.phys f₀) (fun _ _ => True) := by
  have hp' := hp.editable h.linked
  have hsole : Sole g s p := .inr (h.sound.exclusive trivial p hp' hentry.held (.inl hentry.rw))
  have hwork := copyPagePhysical_work (c := True) (K := {p}) hp' rfl hentry.held
    (fun _ => hsole) (frameAddr f₀)
  have hne := h.scratched.ne
  rw [copyPagePhysical_apply, frameAddr_shift] at hwork
  refine .of_ok (copyPagePhysical_apply _ _ _) ?_
  rw [frameAddr_shift]
  refine ⟨fun q hq hqp => ⟨page_scratchedBoth (hq.editable h.linked) _ _, ?_⟩, hwork.rest,
    page_scratchedBoth hp' _ _, ?_⟩
  · exact hwork.steps.phys_kept trivial h.sound (hq.editable h.linked) hqp
  · have hsrc : (scratchedBoth s f₀ (s.page p).addr).page s.emptyPage0 =
        { s.page s.emptyPage0 with addr := f₀ } := by
      rw [scratchedBoth, Kernel.page_setEntry_of_ne _ _ hne, scratched, Kernel.page_setEntry_self]
    rw [hsrc]
    exact if_pos rfl

theorem copyStack_copies (h : Running g True F s) (hstack : HasStack g s s.currentPageDir q)
    (hne : s.currentPageDir ≠ dest) (hnull : (s.dir dest).tables 1023 = null) :
    Ends (copyStack dest stackPage) s (fun _ u => Spared g ∅ s u ∧
      ∃ p, StackCopy g s (s.phys (s.page q).addr) dest u p) (fun _ _ => True) := by
  have hi := h.linked.stack_own.1
  rw [← stackPage_idx] at hi hnull
  refine Ends.bind (((getPageWith_ends h hi hnull).mono (fun _ _ h => h)
    fun _ _ _ => trivial).and (getPageWith_spared h hi hnull)) ?_
  rintro _ s₁ ⟨⟨F', t, hmade, rfl⟩, hspared⟩
  have hrun₁ := hmade.grown.running h
  set p : Slot := ⟨t, tbOffset stackPage⟩ with hp
  have hown : OwnPage g s₁ p :=
    ⟨hmade.tables ▸ List.mem_cons_self, h.notMem_kernel hmade.fresh⟩
  have hlook : Page.lookup s₁ dest stackPage = some p := hmade.lookup
  have hzero : (s₁.page p).addr = 0 := by
    rw [hmade.zero]
    rfl
  have hphys : getPhysicalAddr dest stackPage true false true s₁ = (do
      alloc p false true
      pure (frameAddr (← read (·.page p)).addr ||| (stackPage &&& 0xFFF)) : Prog Word) s₁ := by
    simp only [getPhysicalAddr, bind_apply, read_apply, hrun₁.linked.finished, Bool.true_eq_false,
      if_false, hlook, hzero, if_true]
  refine Ends.bind (Q := fun w s₂ => Alloced s₁ p false true s₂ ∧ w = frameAddr (s₂.page p).addr)
    ?_ ?_
  · rw [Ends, hphys]
    refine Ends.bind ((alloc_ends s₁ p false true).mono (fun _ _ h => h) fun _ _ _ => trivial) ?_
    exact fun _ s₂ hall => ⟨hall, frameAddr_or_stack _⟩
  rintro _ s₂ ⟨hall, rfl⟩
  have hedit := hown.editable hrun₁.linked
  have hwork : Work g True {p} s₁ s₂ := hall.work rfl hedit fun _ _ hheld => absurd hzero hheld
  have hrun₂ := hrun₁.work hwork
  obtain ⟨hheld, hrw, huser, -⟩ := hall.page_self hrun₁.sound.frames
  have hentry : StackEntry (s₂.page p) := ⟨hheld, hrw, huser⟩
  have hown₂ : OwnPage g s₂ p := by
    rw [OwnPage, hwork.tables_eq]
    exact hown
  -- no page of a process that there was is that of the new table
  have hspared₂ : Spared g {p} s₁ s₂ := by
    intro x hx hxp
    refine ⟨?_, hwork.steps.phys_kept trivial hrun₁.sound (hx.editable hrun₁.linked) hxp⟩
    obtain ⟨-, rfl⟩ | ⟨-, f, rest, -, rfl⟩ := hall
    · exact Kernel.page_setEntry_of_ne _ _ hxp
    · exact Kernel.page_setEntry_of_ne _ _ hxp
  have hout : ∀ x, OwnPage g s x → x ∉ ({p} : Set Slot) := by
    rintro _ hx rfl
    exact hmade.fresh hx.1
  have hcur : s₂.currentPageDir = s.currentPageDir := hwork.current_eq.trans hmade.grown.env.current
  have hlook₂ : Page.lookup s₂ s₂.currentPageDir stackPage = some q := by
    rw [hwork.lookup_eq, hcur, Page.lookup, hmade.dir, Kernel.dir_setDir_of_ne _ _ hne]
    exact hstack.lookup
  have hold : Intact s s₂ q := by
    have hq₁ := hspared q hstack.own (Set.notMem_empty q)
    exact hq₁.trans (hspared₂ q (hstack.own.steps hmade.grown.tables) (hout q hstack.own))
  have hsrc : getPhysicalAddr s₂.currentPageDir stackPage false false true s₂ =
      (.ok (frameAddr (s.page q).addr), s₂) := by
    simp only [getPhysicalAddr, bind_apply, read_apply, hrun₂.linked.finished, Bool.true_eq_false,
      if_false, hlook₂, hold.page, hstack.entry.held, pure_apply, frameAddr_or_stack]
  rw [Ends.bind_read]
  refine (Ends.bind_of_ok hsrc).mpr
    ((copyPagePhysical_spared hrun₂ hown₂ hentry _).mono ?_ (fun _ _ h => h))
  rintro - u ⟨hspared₃, hrest, hpage, hbytes⟩
  have hdir : u.dir = s₂.dir := (congrArg Kernel.dir hrest :)
  have htables : u.tables = s₂.tables := (congrArg Kernel.tables hrest :)
  refine ⟨fun x hx _ => ?_, p, ?_, ?_, hmade.fresh, by rw [hpage]; exact hentry, ?_⟩
  · have hx₁ := hx.steps hmade.grown.tables
    have hx₂ : OwnPage g s₂ x := hx₁.steps (hwork.tables_eq ▸ fun _ h => h)
    exact ((hspared x hx (Set.notMem_empty x)).trans (hspared₂ x hx₁ (hout x hx))).trans
      (hspared₃ x hx₂ (hout x hx))
  · rw [Page.lookup, hdir, ← Page.lookup, hwork.lookup_eq]
    exact hlook
  · rw [OwnPage, htables]
    exact hown₂
  · rw [hpage, hbytes]
    exact hold.phys

/-- The loop of `clone_directory` over the one page of the stack. -/
theorem copyStacks_ends (h : Running g True F s) (hstack : HasStack g s s.currentPageDir q)
    (hne : s.currentPageDir ≠ dest) (hnull : (s.dir dest).tables 1023 = null) :
    Ends (forPages (copyStack dest) kernelStackPos loopBound (kernelStackPos - kernelStackSize)) s
      (fun _ u => Spared g ∅ s u ∧ ∃ p, StackCopy g s (s.phys (s.page q).addr) dest u p)
      (fun _ _ => True) := by
  let I : Word → Kernel → Prop := fun a u => (a = stackPage ∧ u = s) ∨
    (a = kernelStackPos ∧ Spared g ∅ s u ∧ ∃ p, StackCopy g s (s.phys (s.page q).addr) dest u p)
  have hloop : Ends (forPages (copyStack dest) kernelStackPos loopBound stackPage) s
      (fun _ u => ∃ a, kernelStackPos ≤ a ∧ I a u) (fun _ _ => True) := by
    refine forPages_ends I (by decide) (fun a u _ hlt hI => ?_) loopBound stackPage s (by decide)
      (.inl ⟨rfl, rfl⟩) (by decide)
    obtain ⟨rfl, rfl⟩ | ⟨rfl, -⟩ := hI
    · exact (copyStack_copies h hstack hne hnull).mono (fun _ _ hcopy => .inr ⟨by decide, hcopy⟩)
        (fun _ _ h => h)
    · exact absurd hlt (by decide)
  refine hloop.mono ?_ (fun _ _ h => h)
  rintro - u ⟨a, hle, ⟨rfl, -⟩ | ⟨-, hcopy⟩⟩
  · exact absurd hle (by decide)
  · exact hcopy

/-- One step of the last loop of `clone_directory`. -/
theorem cloneUserTable_spared (h : Running g True F s)
    (hown : (s.dir src).tables i ≠ null →
      (s.dir src).tables i ∈ s.tables ∧ (s.dir src).tables i ∉ g.kernel) :
    Ends (cloneUserTable dest src i) s
      (fun _ u => Spared g (tableSlots ((s.dir src).tables i)) s u ∧ s.tables ⊆ u.tables ∧
        ∀ j, j ≠ i → (u.dir dest).tables j = (s.dir dest).tables j) (fun _ _ => True) := by
  rw [cloneUserTable, Ends.bind_read]
  split
  · exact ⟨.refl, fun _ ht => ht, fun _ _ => rfl⟩
  · next hnull =>
      obtain ⟨hmem, hk⟩ := hown hnull
      refine Ends.bind (((cloneTable_ends h hmem hk).mono (fun _ _ h => h)
        fun _ _ _ => trivial).and (cloneTable_spared h _)) ?_
      rintro t s₁ ⟨⟨F', hcl⟩, hspared⟩
      refine (Ends.bind_of_ok (modify_apply _ _)).mpr ?_
      rw [Ends.bind_read]
      obtain ⟨w, hw⟩ := getPhysicalAddr_reads (s₁.setDir dest fun x =>
        { x with tables := fun j => if j = i then t else x.tables j })
        s₁.currentPageDir t false true
      refine (Ends.bind_of_ok hw).mpr ?_
      rw [Ends.bind_read]
      refine .of_ok (modify_apply _ _) ⟨fun p hp hK => ⟨(hspared p hp hK).page,
        (hspared p hp hK).phys⟩, hcl.tables ▸ List.subset_cons_self _ _, fun j hj => ?_⟩
      rw [Kernel.dir_setDir_self, Kernel.dir_setDir_self, ← hcl.dir]
      exact if_neg hj

/-- The pages of the user range of a directory. -/
def Layout.userSlots (g : Layout) (s : Kernel) (d : Word) : Set Slot :=
  {p | ∃ i, g.User i ∧ p.table = (s.dir d).tables i}

/-- The tables of the user range are cloned, and the stack is copied. -/
structure StackBuilt (g : Layout) (src dest : Word) (bytes : BitVec 12 → Byte) (s u : Kernel) :
    Prop where
  spared : Spared g (g.userSlots s src) s u
  copy : ∃ p, StackCopy g s bytes dest u p

theorem StackBuilt.next {n : Nat} {bytes : BitVec 12 → Byte}
    (h : StackBuilt g src dest bytes s u) (hb : Building g True F F' src dest s n u)
    (hs : Running g True F s) (hsrc : src ∈ s.dirs) (huser : g.User i) :
    Ends (cloneUserTable dest src i) u (fun _ u' => StackBuilt g src dest bytes s u')
      (fun _ _ => True) := by
  have hdest : dest ∉ s.dirs := hs.notMem_dirs fun k hk => (hb.space k hk).1
  have hne : src ≠ dest := fun e => hdest (e ▸ hsrc)
  have hother : u.dir src = s.dir src := hb.others src hne
  have hown := hs.linked.owned.own src hsrc i huser.not_shared
  refine (cloneUserTable_spared (hb.grown.running hs) fun hnull => ?_).mono ?_ (fun _ _ h => h)
  · rw [hother] at hnull ⊢
    exact ⟨hb.grown.tables (hown hnull).1, (hown hnull).2⟩
  rw [hother]
  rintro - u' ⟨hspared, htables, hdir⟩
  have hslots : tableSlots ((s.dir src).tables i) ⊆ g.userSlots s src := fun p hp => ⟨i, huser, hp⟩
  obtain ⟨p, hp⟩ := h.copy
  refine ⟨h.spared.trans (hspared.mono hslots) hb.grown.tables, p, ?_⟩
  have hlook := hp.lookup
  have hmem := hp.own.1
  have hpi : p ∉ tableSlots ((s.dir src).tables i) := by
    intro e
    by_cases hnull : (s.dir src).tables i = null
    · -- a page that is looked up is not in the null table
      rw [Page.lookup] at hlook
      split at hlook
      · cases hlook
      · next hne =>
          obtain rfl := Option.some.inj hlook
          exact hne ((e : _ = _).trans hnull)
    · exact hp.fresh ((e : p.table = _) ▸ (hown hnull).1)
  have hintact := hspared p hp.own hpi
  refine ⟨?_, hp.own.steps htables, hp.fresh, by rw [hintact.page]; exact hp.entry, ?_⟩
  · have hidx : (1023 : BitVec 10) ≠ i := fun e => hs.linked.stack_own.2 (e ▸ huser)
    rw [← hlook, Page.lookup, Page.lookup, stackPage_idx, hdir _ hidx]
  · rw [hintact.page, hintact.phys]
    exact hp.bytes

/-- The memory of a new directory is taken and cleared. -/
theorem newDirectory_spared {got : Block} {s₁ : Kernel}
    (hm : Malloced g True F F' sizeofDirectory 12 dest got s s₁) (h : Valid g True F s) :
    Ends (memset dest 0 sizeofDirectory.toNat) (s₁.setDir dest fun _ => Directory.zero)
      (fun _ s' => Spared g ∅ s s') (fun _ _ => True) := by
  have hgrown := hm.grown h
  have hdirs₁ : s₁.dirs = s.dirs := (congrArg Kernel.dirs hm.rest :)
  have hnot : dest ∉ s₁.dirs := by
    rw [hdirs₁]
    exact h.notMem_dirs fun k hk =>
      (hm.payload_free h (Nat.le_add_right _ _) (Nat.add_lt_add_left hk _)).1
  have hg := hgrown.setDir (hgrown.valid.linked.setDir_of_notMem hnot fun _ => Directory.zero)
  have hbounds := hm.heapAddr
  have hopen : OpenRange g (s₁.setDir dest fun _ => Directory.zero) dest sizeofDirectory.toNat :=
    hm.openRange
  refine (memset_spared hg.valid.sound hg.valid.linked (by omega) hopen 0).mono
    (fun _ s' hclear p hp hK => ?_) (fun _ _ h => h)
  have hfirst := hm.spared h p hp hK
  exact ⟨((hclear.1 p (hp.steps hgrown.tables) hK).page).trans hfirst.page, by
    rw [← hfirst.phys, ← hfirst.page]
    exact (hclear.1 p (hp.steps hgrown.tables) hK).phys⟩

/-- A clone has a stack with the bytes of the stack on which the kernel makes it, and the
pages of all stacks are intact. -/
theorem cloneDirectory_stack (h : Running g True F s) (hsrc : src ∈ s.dirs)
    (hstack : HasStack g s s.currentPageDir q) :
    Ends (cloneDirectory src) s
      (fun dest u => StackBuilt g src dest (s.phys (s.page q).addr) s u) (fun _ _ => True) := by
  refine Ends.bind ((kmalloc_ends h.toValid (by decide) (by decide)).mono (fun _ _ h => h)
    fun _ _ _ => trivial) ?_
  rintro dest s₁ ⟨F₁, got, hm⟩
  have hspace : ∀ k < sizeofDirectory.toNat,
      0 < depthOf F (dest.toNat + k) ∧ depthOf F₁ (dest.toNat + k) = 0 := fun k hk =>
    hm.payload_free h.toValid (Nat.le_add_right _ _) (Nat.add_lt_add_left hk _)
  have hdest : dest ∉ s.dirs := h.notMem_dirs fun k hk => (hspace k hk).1
  have hne : src ≠ dest := fun e => hdest (e ▸ hsrc)
  have hcurne : s.currentPageDir ≠ dest := fun e => hdest (e ▸ h.linked.current)
  refine (Ends.bind_of_ok (modify_apply _ _)).mpr (Ends.bind
    (((newDirectory_ends hm h.toValid).mono (fun _ _ h => h) fun _ _ _ => trivial).and
      (newDirectory_spared hm h.toValid)) ?_)
  rintro - s₂ ⟨⟨hg₂, hdirs₂, hdir₂, hres₂⟩, hspared₂⟩
  have hl₂ := hg₂.valid.linked
  rw [Ends.bind_read]
  refine (Ends.bind_of_ok (getPhysicalAddr_of_resident hl₂ hres₂)).mpr ?_
  set w := frameAddr (s₂.page (g.slot (dest + 4096))).addr ||| ((dest + 4096) &&& 0xFFF) with hw
  have hsrc₂ : s₂.dir src = s.dir src := by
    rw [hdir₂, Kernel.dir_setDir_of_ne _ _ hne]
  have hlow : (s₂.setDir dest ({ · with phyaddr := w })).kernelLowNtable = g.low := hl₂.low
  have hle : g.low ≤ 959 := hl₂.lowLe
  refine (Ends.bind_of_ok (modify_apply _ _)).mpr ?_
  rw [Ends.bind_read, hlow]
  refine Ends.bind (linkTables_ends hne (by omega)) ?_
  rintro - s₃ hs₃
  refine Ends.bind (linkTables_ends hne (by decide)) ?_
  rintro - s₄ hs₄
  have hdest₂ : dest ∉ s₂.dirs := hdirs₂ ▸ hdest
  obtain rfl : s₄ = s₂.setDir dest (fun x => (({ x with phyaddr := w } : Directory).link
      (s.dir src) 0 g.low).link (s.dir src) heapBeginIdx heapEndIdx) := by
    rw [hs₄, hs₃]
    simp only [Kernel.setDir_setDir, Kernel.dir_setDir_of_ne _ _ hne, hsrc₂, Nat.zero_add]
    rfl
  have hg₄ := hg₂.setDir (hl₂.setDir_of_notMem hdest₂ fun x =>
    (({ x with phyaddr := w } : Directory).link (s.dir src) 0 g.low).link (s.dir src) heapBeginIdx
      heapEndIdx)
  obtain ⟨hbuild, hnull⟩ := building_of_shell (w := w) h.toValid hsrc hg₄ hspace hdirs₂ (by
    funext d
    rcases eq_or_ne d dest with rfl | hd
    · rw [Kernel.dir_setDir_self, Kernel.dir_setDir_self, hdir₂, Kernel.dir_setDir_self]
      rfl
    · rw [Kernel.dir_setDir_of_ne _ _ hd, Kernel.dir_setDir_of_ne _ _ hd, hdir₂,
        Kernel.dir_setDir_of_ne _ _ hd]) hw
    ⟨hres₂.heap, hres₂.scratch, hres₂.opened, hres₂.held⟩
  have hold := hspared₂ q hstack.own (Set.notMem_empty q)
  set s₄ := s₂.setDir dest (fun x => (({ x with phyaddr := w } : Directory).link
      (s.dir src) 0 g.low).link (s.dir src) heapBeginIdx heapEndIdx) with hs₄
  have hcur : s₄.currentPageDir = s.currentPageDir := hg₄.env.current
  have hpage₄ : s₄.page q = s.page q := hold.page
  have hphys₄ : s₄.phys (s.page q).addr = s.phys (s.page q).addr := hold.phys
  have hstack₄ : HasStack g s₄ s₄.currentPageDir q := by
    refine ⟨?_, hstack.own.steps hg₄.tables, by rw [hpage₄]; exact hstack.entry⟩
    rw [hcur, lookup, hbuild.others _ hcurne]
    exact hstack.lookup
  refine Ends.bind (((hbuild.stack_ends h hnull).mono (fun _ _ h => h) fun _ _ _ => trivial).and
    (copyStacks_ends (hg₄.running h) hstack₄ (hcur ▸ hcurne) hnull)) ?_
  rintro - s₅ ⟨⟨F₅, hbuild₅⟩, hspared₅, p, hcopy⟩
  have hspared₄ : Spared g ∅ s s₄ := fun x hx hK =>
    ⟨(hspared₂ x hx hK).page, (hspared₂ x hx hK).phys⟩
  have hbuilt : StackBuilt g src dest (s.phys (s.page q).addr) s s₅ := by
    refine ⟨(hspared₄.trans hspared₅ hg₄.tables).mono (Set.empty_subset _), p, hcopy.lookup,
      hcopy.own, fun hp => hcopy.fresh (hg₄.tables hp), hcopy.entry, ?_⟩
    rw [hcopy.bytes, hpage₄, hphys₄]
  refine Ends.bind (forIdx_ends (fun n u => (∃ F', Building g True F F' src dest s n u) ∧
    StackBuilt g src dest (s.phys (s.page q).addr) s u) (fun n u hlo hn hu => ?_)
    ⟨⟨F₅, hbuild₅⟩, hbuilt⟩) ?_
  · obtain ⟨⟨F', hb⟩, hu⟩ := hu
    have hn' : n < heapBeginIdx := by
      rw [heapBeginIdx_eq] at hn ⊢
      omega
    have hi : (BitVec.ofNat 10 n).toNat = n := by
      rw [BitVec.toNat_ofNat]
      rw [heapBeginIdx_eq] at hn'
      exact Nat.mod_eq_of_lt (by omega)
    exact ((hb.cloneUserTable_ends h hsrc hlo hn').mono (fun _ _ h => h) fun _ _ _ => trivial).and
      (hu.next hb h hsrc ⟨by omega, by omega⟩)
  · rintro - s₆ ⟨-, hspared₆, p₆, hcopy₆⟩
    exact .of_ok rfl ⟨fun x hx hK => ⟨(hspared₆ x hx hK).page, (hspared₆ x hx hK).phys⟩,
      p₆, hcopy₆.lookup, hcopy₆.own, hcopy₆.fresh, hcopy₆.entry, hcopy₆.bytes⟩

end Jkos.Page
