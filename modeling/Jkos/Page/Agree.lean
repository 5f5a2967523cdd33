import Jkos.Page.Make

/-!
# The two views of a directory

The processor walks the entries of a directory and the kernel its tables. `Agrees` says
that an entry is present exactly if there is a table, and that it holds the frame to which
the kernel maps the table. The frame of a table never changes, so the agreement lasts.
-/

namespace Jkos.Page

open Exec Kheap

variable {g : Layout} {c : Prop} {K : Set Slot} {s s' s'' : Kernel} {p q : Slot}
  {F F' F'' : Multiset Block} {D : List Word} {d d' t a : Word} {i j : BitVec 10} {f : Frame}
  {x : Directory}

/-! ## The identity map -/

/-- Nothing touches the entries of the identity map. -/
theorem Step.page_identity (h : Step g c K s s') (hs : FrameInv g s) (hp : p ∈ g.identity) :
    s'.page p = s.page p := by
  have hne : ∀ {q}, Editable g s q → p ≠ q := fun hq e => hq.ordinary (e ▸ hp)
  cases h with
  | other frames ref page tables phys empty0 empty1 => rw [page]
  | scratch q f hq =>
      refine Kernel.page_setEntry_of_ne _ _ ?_
      rintro rfl
      rcases hq with rfl | rfl
      · exact hs.apart0 hp
      · exact hs.apart1 hp
  | flags q m inside hq addr shape sole => exact Kernel.page_setEntry_of_ne _ _ (hne hq)
  | write q bytes inside hq held sole => rfl
  | take q f rest m inside hq top zero addr present allocable =>
      exact Kernel.page_setEntry_of_ne _ _ (hne hq)
  | replace q f rest m inside hq top held many addr present allocable =>
      exact Kernel.page_setEntry_of_ne _ _ (hne hq)
  | free q inside hq =>
      by_cases hzero : (s.page q).addr = 0
      · rw [free_of_zero hzero]
      · by_cases hone : s.frameRefCnt (s.page q).addr = 1
        · rw [free_of_one hzero hone]
          exact Kernel.page_setEntry_of_ne _ _ (hne hq)
        · rw [free_of_many hzero hone]
          exact Kernel.page_setEntry_of_ne _ _ (hne hq)
  | newTable t inside fresh aligned =>
      exact if_neg fun e : p.table = t => fresh (e ▸ (hs.identity p hp).1)
  | share dest src i inside hdest hsrc destUser srcUser zero held =>
      rw [cloneEntry_of_held held, Kernel.page_setRef, Kernel.page_setEntry_of_ne _ _ (hne hdest),
        Kernel.page_setEntry_of_ne _ _ (hne hsrc)]

theorem Steps.page_identity (h : Steps g c K s s') (hs : FrameInv g s) (hp : p ∈ g.identity) :
    s'.page p = s.page p := by
  have hboth : FrameInv g s' ∧ s'.page p = s.page p := by
    induction h with
    | refl => exact ⟨hs, rfl⟩
    | tail _ hstep ih =>
        exact ⟨hstep.frameInv ih.1, (hstep.page_identity ih.1 hp).trans ih.2⟩
  exact hboth.2

/-! ## Frames of kernel objects -/

/-- The kernel maps the address to the frame `f`, in the identity map or in a page of the
heap that it has open. -/
structure Backed (g : Layout) (s : Kernel) (a : Word) (f : Frame) : Prop where
  addr : (s.page (g.slot a)).addr = f
  held : f ≠ 0
  place : (HeapAddr a ∧ ¬ ScratchPage s a ∧ Opened s (g.slot a)) ∨
    (g.Shared (tbIdx a) ∧ g.slot a ∈ g.identity ∧ (s.page (g.slot a)).present = true)

theorem Resident.backed (h : Resident g s a) : Backed g s a (s.page (g.slot a)).addr :=
  ⟨rfl, h.held, .inl ⟨h.heap, h.scratch, h.opened⟩⟩

theorem Backed.shared (h : Backed g s a f) : g.Shared (tbIdx a) := by
  rcases h.place with hheap | hid
  · exact Linked.shared_of_heap hheap.1
  · exact hid.1

/-- The physical address to which a directory maps an address. -/
def physicalAddr (s : Kernel) (d a : Word) : Option Word :=
  (lookup s d a).bind fun p =>
    if (s.page p).present = true then some (frameAddr (s.page p).addr ||| (a &&& 0xFFF)) else none

/-- Every directory maps the address to this frame. -/
theorem Backed.physicalAddr (h : Backed g s a f) (hs : Sound g c s) (hl : Linked g s)
    (hd : d ∈ s.dirs) : physicalAddr s d a = some (frameAddr f ||| (a &&& 0xFFF)) := by
  have hpresent : (s.page (g.slot a)).present = true := by
    obtain ⟨hheap, hscratch, -⟩ | ⟨-, -, hpresent⟩ := h.place
    · exact (hs.shaped _ (hl.editable_heap hheap hscratch)).1.mpr (h.addr ▸ h.held)
    · exact hpresent
  rw [Page.physicalAddr, hl.lookup_shared hd h.shared]
  change (if (s.page (g.slot a)).present = true then _ else _) = _
  rw [if_pos hpresent, h.addr]

/-- Steps that leave the page of the heap open and its frame in place. -/
theorem Backed.steps (h : Backed g s a f) (hsteps : Steps g c K s s') (hs : FrameInv g s)
    (henv : SameEnv s s')
    (hheap : HeapAddr a → ¬ ScratchPage s a → Opened s (g.slot a) → (s.page (g.slot a)).addr ≠ 0 →
      Opened s' (g.slot a) ∧ (s'.page (g.slot a)).addr = (s.page (g.slot a)).addr) :
    Backed g s' a f := by
  obtain ⟨hha, hscratch, hopen⟩ | ⟨hshared, hid, hpresent⟩ := h.place
  · obtain ⟨hopen', haddr⟩ := hheap hha hscratch hopen (h.addr ▸ h.held)
    exact ⟨haddr.trans h.addr, h.held,
      .inl ⟨hha, fun hs => hscratch ((henv.scratchPage_iff a).mp hs), hopen'⟩⟩
  · have hpage := hsteps.page_identity hs hid
    exact ⟨by rw [hpage]; exact h.addr, h.held, .inr ⟨hshared, hid, by rw [hpage]; exact hpresent⟩⟩

theorem Backed.grown (h : Backed g s a f) (hg : Grown g c F F' s s') (hs : Valid g c F s) :
    Backed g s' a f := by
  refine h.steps hg.steps hs.sound.frames hg.env fun hha hscratch hopen hheld => ?_
  have hedit := hs.linked.editable_heap hha hscratch
  have hk := (hs.linked.lookup_heap hs.linked.current hha).2
  exact ⟨hg.opened _ hk hedit hopen, hg.fixed _ hk hedit hheld⟩

theorem Resident.grown (h : Resident g s a) (hg : Grown g c F F' s s') (hs : Valid g c F s) :
    Resident g s' a := by
  have hedit := hs.linked.editable_heap h.heap h.scratch
  have hk := (hs.linked.lookup_heap hs.linked.current h.heap).2
  refine ⟨h.heap, fun hscr => h.scratch ((hg.env.scratchPage_iff a).mp hscr),
    hg.opened _ hk hedit h.opened, ?_⟩
  rw [hg.fixed _ hk hedit h.held]
  exact h.held

/-! ## Agreement -/

structure Agrees (g : Layout) (s : Kernel) (x : Directory) : Prop where
  present : ∀ i, (x.entries i).present = true ↔ x.tables i ≠ null
  backed : ∀ i, x.tables i ≠ null → Backed g s (x.tables i) (x.entries i).addr

theorem Agrees.mono (h : Agrees g s x)
    (hb : ∀ i f, x.tables i ≠ null → Backed g s (x.tables i) f → Backed g s' (x.tables i) f) :
    Agrees g s' x :=
  ⟨h.present, fun i hi => hb i _ hi (h.backed i hi)⟩

theorem Agrees.grown (h : Agrees g s x) (hg : Grown g c F F' s s') (hs : Valid g c F s) :
    Agrees g s' x :=
  h.mono fun _ _ _ hb => hb.grown hg hs

/-- A cleared directory has neither tables nor entries. -/
theorem Agrees.zero : Agrees g s Directory.zero :=
  ⟨fun _ => ⟨fun h : false = true => absurd h (by decide), fun h => absurd rfl h⟩,
    fun _ h => absurd rfl h⟩

/-- A table and its entry are set together. -/
theorem Agrees.set (h : Agrees g s x) {e : DirectoryEntry} (ht : t ≠ null) (he : e.present = true)
    (hb : Backed g s t e.addr) : Agrees g s ((x.setTable i t).setEntry i e) := by
  have hcase : ∀ j, (j = i ∧ ((x.setTable i t).setEntry i e).tables j = t ∧
      ((x.setTable i t).setEntry i e).entries j = e) ∨
      (((x.setTable i t).setEntry i e).tables j = x.tables j ∧
        ((x.setTable i t).setEntry i e).entries j = x.entries j) := by
    intro j
    by_cases hj : j = i
    · exact .inl ⟨hj, if_pos hj, if_pos hj⟩
    · exact .inr ⟨if_neg hj, if_neg hj⟩
  refine ⟨fun j => ?_, fun j hj => ?_⟩
  · obtain ⟨-, h₁, h₂⟩ | ⟨h₁, h₂⟩ := hcase j
    · rw [h₁, h₂]
      exact ⟨fun _ => ht, fun _ => he⟩
    · rw [h₁, h₂]
      exact h.present j
  · obtain ⟨-, h₁, h₂⟩ | ⟨h₁, h₂⟩ := hcase j
    · rw [h₁, h₂]
      exact hb
    · rw [h₁] at hj ⊢
      rw [h₂]
      exact h.backed j hj

/-- `get_page` samples the frame of the table that it makes. -/
theorem Made.agrees (h : Made g c F F' d i t s s') (hs : Valid g c F s) {d' : Word}
    (hagree : Agrees g s (s.dir d')) : Agrees g s' (s'.dir d') := by
  have hold := hagree.grown h.grown hs
  rw [h.dir]
  rcases eq_or_ne d' d with rfl | hne
  · rw [Kernel.dir_setDir_self]
    exact hold.set h.ne_null rfl h.resident.backed
  · rw [Kernel.dir_setDir_of_ne _ _ hne]
    exact hold

/-- The processor and the kernel agree about every directory in existence. -/
structure Coherent (g : Layout) (s : Kernel) : Prop where
  agrees : ∀ d ∈ s.dirs, Agrees g s (s.dir d)
  phyaddr : ∀ d ∈ s.dirs, ∃ f, Backed g s (d + 4096) f ∧
    (s.dir d).phyaddr = frameAddr f ||| ((d + 4096) &&& 0xFFF)

end Jkos.Page
