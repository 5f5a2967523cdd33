import Jkos.Page.Clone
import Jkos.Page.Frames
import Mathlib.Logic.Relation

/-!
# Changes of the page tables

Every function of `page.cpp` changes the entries, the reference counts and the frames in
a few ways only, which `Step` lists. What holds along steps therefore holds along every
function: the accounting of frames, the shape of entries and, for steps that respect
copy-on-write, that a writable entry shares its frame with nobody.
-/

namespace Jkos.Page

open Exec

/-- An entry holds a frame exactly if it is present, and is then open to faults. -/
def Shape (e : TableEntry) : Prop :=
  (e.present = true ↔ e.addr ≠ 0) ∧ (e.addr ≠ 0 → e.allocable = true)

/-- What a page shows to whoever can read it: the contents of its frame, zeros if it is
yet to be filled, and nothing known otherwise. -/
def view (s : Kernel) (p : Slot) : Option (BitVec 12 → Byte) :=
  if (s.page p).addr ≠ 0 then some (s.phys (s.page p).addr)
  else if (s.page p).allocable = true ∧ (s.page p).allocFill ≠ 0 then some (fun _ => 0)
  else none

variable (g : Layout)

/-- An entry that is neither a scratch page nor part of the identity map. -/
structure Editable (s : Kernel) (p : Slot) : Prop where
  counted : Counted s p
  ordinary : p ∉ g.identity

/-- Nobody else maps the frame of this entry: it is in a table of the kernel, or the
reference count says so. -/
def Sole (s : Kernel) (p : Slot) : Prop :=
  p.table ∈ g.kernel ∨ s.frameRefCnt (s.page p).addr = 1

/-- The changes that happen to entries in `K`; only `share` also changes an entry outside,
from which it takes the write permission. If `c` holds, copy-on-write is respected: no
shared frame becomes writable or changes its contents. -/
inductive Step (c : Prop) (K : Set Slot) (s : Kernel) : Kernel → Prop
  | other {s' : Kernel} (frames : s'.frames = s.frames) (ref : s'.frameRefCnt = s.frameRefCnt)
      (page : s'.page = s.page) (tables : s'.tables = s.tables) (phys : s'.phys = s.phys)
      (empty0 : s'.emptyPage0 = s.emptyPage0) (empty1 : s'.emptyPage1 = s.emptyPage1) :
      Step c K s s'
  | scratch (p : Slot) (f : Frame) (hp : p = s.emptyPage0 ∨ p = s.emptyPage1) :
      Step c K s (s.setEntry p ({ · with addr := f }))
  | flags (p : Slot) (m : TableEntry → TableEntry) (inside : p ∈ K) (hp : Editable g s p)
      (addr : (m (s.page p)).addr = (s.page p).addr)
      (shape : Shape (s.page p) → Shape (m (s.page p)))
      (sole : c → (m (s.page p)).rw = true → (s.page p).addr ≠ 0 → Sole g s p) :
      Step c K s (s.setEntry p m)
  | write (p : Slot) (bytes : BitVec 12 → Byte) (inside : p ∈ K) (hp : Editable g s p)
      (held : (s.page p).addr ≠ 0) (sole : c → Sole g s p) :
      Step c K s (s.setFrame (s.page p).addr bytes)
  | take (p : Slot) (f : Frame) (rest : List Frame) (m : TableEntry → TableEntry)
      (inside : p ∈ K) (hp : Editable g s p) (top : s.frames = f :: rest)
      (zero : (s.page p).addr = 0) (addr : (m (s.page p)).addr = f)
      (present : (m (s.page p)).present = true) (allocable : (m (s.page p)).allocable = true) :
      Step c K s ((({ s with frames := rest } : Kernel).setRef f 1).setEntry p m)
  | replace (p : Slot) (f : Frame) (rest : List Frame) (m : TableEntry → TableEntry)
      (inside : p ∈ K) (hp : Editable g s p) (top : s.frames = f :: rest)
      (held : (s.page p).addr ≠ 0) (many : s.frameRefCnt (s.page p).addr ≠ 1)
      (addr : (m (s.page p)).addr = f)
      (present : (m (s.page p)).present = true) (allocable : (m (s.page p)).allocable = true) :
      Step c K s ((({ s.setRef (s.page p).addr (s.frameRefCnt (s.page p).addr - 1) with
        frames := rest } : Kernel).setRef f 1).setEntry p m)
  | free (p : Slot) (inside : p ∈ K) (hp : Editable g s p) : Step c K s (free p s).2
  | newTable (t : Word) (inside : ∀ i, ⟨t, i⟩ ∈ K) (fresh : t ∉ s.tables)
      (aligned : 4096 ∣ t.toNat) : Step c K s (newTable t s).2
  | share (dest src : Word) (i : BitVec 10) (inside : ⟨dest, i⟩ ∈ K)
      (hdest : Editable g s ⟨dest, i⟩) (hsrc : Editable g s ⟨src, i⟩)
      (destUser : dest ∉ g.kernel) (srcUser : src ∉ g.kernel)
      (zero : (s.page ⟨dest, i⟩).addr = 0) (held : (s.page ⟨src, i⟩).addr ≠ 0) :
      Step c K s (cloneEntry dest src i s).2

/-- A writable entry, and every entry of a table of the kernel, is the only holder of its
frame. -/
def Exclusive (s : Kernel) : Prop :=
  ∀ p, Editable g s p → (s.page p).addr ≠ 0 →
    (s.page p).rw = true ∨ p.table ∈ g.kernel → s.frameRefCnt (s.page p).addr = 1

/-- The invariant of the page tables. -/
structure Sound (c : Prop) (s : Kernel) : Prop where
  frames : FrameInv g s
  shaped : ∀ p, Editable g s p → Shape (s.page p)
  exclusive : c → Exclusive g s

variable {g} {c : Prop} {K : Set Slot} {s s' : Kernel} {p q : Slot} {f : Frame}

theorem Editable.held (h : Editable g s p) (hs : FrameInv g s) (hp : (s.page p).addr ≠ 0) :
    (s.page p).addr ∈ g.managed ∧ (s.page p).addr ∉ s.frames := by
  refine ⟨(hs.entry p h.counted h.ordinary).resolve_left hp, fun hmem => ?_⟩
  have hholds : p ∈ holders s (s.page p).addr := ⟨h.counted, rfl⟩
  rw [hs.onStack _ hmem] at hholds
  exact hholds

/-- The only holder of a frame with one reference. -/
theorem Sound.eq_of_ref_one (hs : FrameInv g s) (hp : Editable g s p) (hq : Editable g s q)
    (haddr : (s.page q).addr = (s.page p).addr) (hheld : (s.page p).addr ≠ 0)
    (hone : s.frameRefCnt (s.page p).addr = 1) : q = p := by
  obtain ⟨href, -⟩ := hs.ref_eq hp.counted hp.ordinary rfl hheld
  rw [hone] at href
  obtain ⟨r, hr⟩ := Set.ncard_eq_one.mp href.symm
  have hp' : p ∈ holders s (s.page p).addr := ⟨hp.counted, rfl⟩
  have hq' : q ∈ holders s (s.page p).addr := ⟨hq.counted, haddr⟩
  rw [hr, Set.mem_singleton_iff] at hp' hq'
  rw [hp', hq']

theorem Sound.ref_eq_one (hs : Sound g c s) (hc : c) (hp : Editable g s p)
    (hheld : (s.page p).addr ≠ 0) (hsole : Sole g s p) : s.frameRefCnt (s.page p).addr = 1 := by
  rcases hsole with hk | hone
  · exact hs.exclusive hc p hp hheld (.inr hk)
  · exact hone

/-- A page that is the only holder of its frame holds it alone. -/
theorem Sound.eq_of_sole (hs : Sound g c s) (hc : c) (hp : Editable g s p)
    (hq : Editable g s q) (haddr : (s.page q).addr = (s.page p).addr)
    (hheld : (s.page p).addr ≠ 0) (hsole : Sole g s p) : q = p :=
  Sound.eq_of_ref_one hs.frames hp hq haddr hheld (hs.ref_eq_one hc hp hheld hsole)

/-! ## One step keeps the invariant -/

theorem Kernel.frameRefCnt_setRef_self (s : Kernel) (f : Frame) (n : Word) :
    (s.setRef f n).frameRefCnt f = n := if_pos rfl

@[simp] theorem Kernel.page_setRef (s : Kernel) (f : Frame) (n : Word) :
    (s.setRef f n).page = s.page := rfl

theorem Kernel.setEntry_setEntry (s : Kernel) (p : Slot) (m m' : TableEntry → TableEntry) :
    (s.setEntry p m).setEntry p m' = s.setEntry p (fun e => m' (m e)) := by
  simp only [Kernel.setEntry, if_true]
  congr 1
  funext q
  split <;> rfl

/-- `free` of an entry without a frame does nothing. -/
theorem free_of_zero (h : (s.page p).addr = 0) : (free p s).2 = s := if_pos h

/-- `free` of the last reference puts the frame back on the stack. -/
theorem free_of_one (hheld : (s.page p).addr ≠ 0) (hone : s.frameRefCnt (s.page p).addr = 1) :
    (free p s).2 = ({ s.setRef (s.page p).addr 0 with
      frames := (s.page p).addr :: s.frames } : Kernel).setEntry p
        ({ · with addr := 0, present := false, allocable := false }) := by
  simp only [free, modify_apply, if_neg hheld, Kernel.frameRefCnt_setRef_self, hone]
  rfl

/-- `free` of one of several references. -/
theorem free_of_many (hheld : (s.page p).addr ≠ 0) (hmany : s.frameRefCnt (s.page p).addr ≠ 1) :
    (free p s).2 = (s.setRef (s.page p).addr (s.frameRefCnt (s.page p).addr - 1)).setEntry p
        ({ · with addr := 0, present := false, allocable := false }) := by
  have hne : s.frameRefCnt (s.page p).addr - 1 ≠ 0 := fun e => hmany (by
    rw [← BitVec.sub_add_cancel (s.frameRefCnt (s.page p).addr) 1, e]
    rfl)
  simp only [free, modify_apply, if_neg hheld, Kernel.frameRefCnt_setRef_self, if_neg hne]

/-- The entry of the source loses its write permission, then the other takes its place. -/
theorem cloneEntry_of_held {dest src : Word} {i : BitVec 10}
    (hheld : (s.page ⟨src, i⟩).addr ≠ 0) :
    (cloneEntry dest src i s).2 = ((s.setEntry ⟨src, i⟩ ({ · with rw := false })).setEntry
      ⟨dest, i⟩ (fun _ => { s.page ⟨src, i⟩ with rw := false })).setRef (s.page ⟨src, i⟩).addr
        (s.frameRefCnt (s.page ⟨src, i⟩).addr + 1) := by
  simp only [cloneEntry, modify_apply, if_neg hheld, Kernel.page_setEntry_self]
  rfl

theorem Step.frameInv (h : Step g c K s s') (hs : FrameInv g s) : FrameInv g s' := by
  cases h with
  | other frames ref page tables phys empty0 empty1 =>
      exact hs.congr frames ref page tables empty0 empty1
  | scratch p f hp => exact hs.setScratch hp f
  | flags p m inside hp addr shape sole =>
      exact hs.setFlags addr (fun hid => absurd hid hp.ordinary)
  | write p bytes inside hp held sole => exact hs.congr rfl rfl rfl rfl rfl rfl
  | take p f rest m inside hp top zero addr present allocable =>
      exact hs.take top hp.counted hp.ordinary zero addr
  | replace p f rest m inside hp top held many addr present allocable =>
      have hs₁ := hs.unshare hp.counted hp.ordinary rfl held many
        (m := ({ · with addr := 0 })) rfl
      have hs₂ := hs₁.take (f := f) (q := p) (m := fun _ => m (s.page p)) top hp.counted
        hp.ordinary (by rw [Kernel.page_setEntry_self]) addr
      have e := Kernel.setEntry_setEntry (({ s.setRef (s.page p).addr
        (s.frameRefCnt (s.page p).addr - 1) with frames := rest } : Kernel).setRef f 1) p
        ({ · with addr := 0 }) (fun _ => m (s.page p))
      exact (congrArg (FrameInv g) e).mp hs₂
  | free p inside hp =>
      by_cases hzero : (s.page p).addr = 0
      · rw [free_of_zero hzero]
        exact hs
      · by_cases hone : s.frameRefCnt (s.page p).addr = 1
        · rw [free_of_one hzero hone]
          exact hs.giveBack hp.counted hp.ordinary rfl hzero hone rfl
        · rw [free_of_many hzero hone]
          exact hs.unshare hp.counted hp.ordinary rfl hzero hone rfl
  | newTable t inside fresh aligned => exact hs.newTable fresh aligned
  | share dest src i inside hdest hsrc destUser srcUser zero held =>
      have hne : (⟨dest, i⟩ : Slot) ≠ ⟨src, i⟩ := fun e => held (e ▸ zero)
      have hs₁ := hs.setFlags (q := ⟨src, i⟩) (m := ({ · with rw := false })) rfl
        (fun hid => absurd hid hsrc.ordinary)
      rw [cloneEntry_of_held held]
      refine hs₁.share hsrc.counted hsrc.ordinary ?_ held hdest.counted hdest.ordinary ?_ rfl
      · rw [Kernel.page_setEntry_self]
      · rw [Kernel.page_setEntry_of_ne _ _ hne]
        exact zero

/-- A table is never given up, and the scratch entries stay where they are. -/
theorem Step.editable (h : Step g c K s s') (hp : Editable g s p) : Editable g s' p := by
  obtain ⟨⟨ht, h0, h1⟩, hid⟩ := hp
  cases h with
  | other frames ref page tables phys empty0 empty1 =>
      exact ⟨⟨tables ▸ ht, empty0 ▸ h0, empty1 ▸ h1⟩, hid⟩
  | free q inside hq =>
      refine ⟨?_, hid⟩
      by_cases hzero : (s.page q).addr = 0
      · rw [free_of_zero hzero]
        exact ⟨ht, h0, h1⟩
      · by_cases hone : s.frameRefCnt (s.page q).addr = 1
        · rw [free_of_one hzero hone]
          exact ⟨ht, h0, h1⟩
        · rw [free_of_many hzero hone]
          exact ⟨ht, h0, h1⟩
  | newTable t inside fresh aligned => exact ⟨⟨List.mem_cons_of_mem t ht, h0, h1⟩, hid⟩
  | share dest src i inside hdest hsrc destUser srcUser zero held =>
      rw [cloneEntry_of_held held]
      exact ⟨⟨ht, h0, h1⟩, hid⟩
  | _ => exact ⟨⟨ht, h0, h1⟩, hid⟩

theorem shaped_setEntry {s₁ : Kernel} {m : TableEntry → TableEntry} (hpage : s₁.page = s.page)
    (hm : Shape (m (s.page p))) (hq : Shape (s.page q)) : Shape ((s₁.setEntry p m).page q) := by
  rcases eq_or_ne q p with rfl | hne
  · rw [Kernel.page_setEntry_self, hpage]
    exact hm
  · rw [Kernel.page_setEntry_of_ne _ _ hne, hpage]
    exact hq

theorem shape_of_held {e : TableEntry} (haddr : e.addr ≠ 0) (hpresent : e.present = true)
    (hallocable : e.allocable = true) : Shape e :=
  ⟨⟨fun _ => haddr, fun _ => hpresent⟩, fun _ => hallocable⟩

theorem shape_of_freed {e : TableEntry} (haddr : e.addr = 0) (hpresent : e.present = false) :
    Shape e :=
  ⟨⟨fun h => absurd (hpresent.symm.trans h) (by decide), fun h => absurd haddr h⟩,
    fun h => absurd haddr h⟩

theorem FrameInv.top_ne_zero (hs : FrameInv g s) {rest : List Frame}
    (top : s.frames = f :: rest) : f ≠ 0 :=
  fun e => hs.zero (e ▸ hs.free f (top ▸ List.mem_cons_self))

theorem Step.shaped (h : Step g c K s s') (hs : FrameInv g s)
    (hshape : ∀ q, Editable g s q → Shape (s.page q)) (hq : Editable g s' q) :
    Shape (s'.page q) := by
  cases h with
  | other frames ref page tables phys empty0 empty1 =>
      rw [page]
      refine hshape q ⟨?_, hq.ordinary⟩
      have := hq.counted
      rwa [Counted, tables, empty0, empty1] at this
  | scratch p f hp =>
      have hne : q ≠ p := by
        rcases hp with rfl | rfl
        · exact hq.counted.2.1
        · exact hq.counted.2.2
      rw [Kernel.page_setEntry_of_ne _ _ hne]
      exact hshape q ⟨hq.counted, hq.ordinary⟩
  | flags p m inside hp addr shape sole =>
      exact shaped_setEntry rfl (shape (hshape p hp)) (hshape q ⟨hq.counted, hq.ordinary⟩)
  | write p bytes inside hp held sole => exact hshape q ⟨hq.counted, hq.ordinary⟩
  | take p f rest m inside hp top zero addr present allocable =>
      have hne : (m (s.page p)).addr ≠ 0 := addr ▸ hs.top_ne_zero top
      exact shaped_setEntry (s := s) rfl (shape_of_held hne present allocable)
        (hshape q ⟨hq.counted, hq.ordinary⟩)
  | replace p f rest m inside hp top held many addr present allocable =>
      have hne : (m (s.page p)).addr ≠ 0 := addr ▸ hs.top_ne_zero top
      exact shaped_setEntry (s := s) rfl (shape_of_held hne present allocable)
        (hshape q ⟨hq.counted, hq.ordinary⟩)
  | free p inside hp =>
      by_cases hzero : (s.page p).addr = 0
      · rw [free_of_zero hzero] at hq ⊢
        exact hshape q hq
      · by_cases hone : s.frameRefCnt (s.page p).addr = 1
        · rw [free_of_one hzero hone] at hq ⊢
          exact shaped_setEntry (s := s) rfl (shape_of_freed rfl rfl)
            (hshape q ⟨hq.counted, hq.ordinary⟩)
        · rw [free_of_many hzero hone] at hq ⊢
          exact shaped_setEntry (s := s) rfl (shape_of_freed rfl rfl)
            (hshape q ⟨hq.counted, hq.ordinary⟩)
  | newTable t inside fresh aligned =>
      change Shape (if q.table = t then TableEntry.zero else s.page q)
      split
      · exact shape_of_freed rfl rfl
      · next hne =>
          refine hshape q ⟨⟨?_, hq.counted.2⟩, hq.ordinary⟩
          exact (List.mem_cons.mp hq.counted.1).resolve_left hne
  | share dest src i inside hdest hsrc destUser srcUser zero held =>
      rw [cloneEntry_of_held held] at hq ⊢
      have hsrc' : Shape { s.page ⟨src, i⟩ with rw := false } := hshape _ hsrc
      exact shaped_setEntry (s := s.setEntry ⟨src, i⟩ ({ · with rw := false }))
        (m := fun _ => { s.page ⟨src, i⟩ with rw := false }) rfl hsrc'
        (shaped_setEntry rfl hsrc' (hshape q ⟨hq.counted, hq.ordinary⟩))

/-- Taking a frame from the stack keeps every entry exclusive that was. -/
theorem exclusive_take (hs : FrameInv g s) {s₁ : Kernel} {rest : List Frame}
    {m : TableEntry → TableEntry} (hpage : s₁.page = s.page) (top : s.frames = f :: rest)
    (addr : (m (s.page p)).addr = f)
    (hother : ∀ r, r ≠ p → Editable g s r → (s.page r).addr ≠ 0 →
      (s.page r).rw = true ∨ r.table ∈ g.kernel → s₁.frameRefCnt (s.page r).addr = 1)
    (hq : Editable g s q) (hheld : (((s₁.setRef f 1).setEntry p m).page q).addr ≠ 0)
    (hrw : (((s₁.setRef f 1).setEntry p m).page q).rw = true ∨ q.table ∈ g.kernel) :
    ((s₁.setRef f 1).setEntry p m).frameRefCnt
      (((s₁.setRef f 1).setEntry p m).page q).addr = 1 := by
  have hpage' : (s₁.setRef f 1).page = s.page := hpage
  rcases eq_or_ne q p with rfl | hne
  · rw [Kernel.page_setEntry_self, hpage', addr]
    exact if_pos rfl
  · rw [Kernel.page_setEntry_of_ne _ _ hne, hpage'] at hheld hrw ⊢
    have hnot : (s.page q).addr ≠ f :=
      fun e => (hq.held hs hheld).2 (top ▸ e ▸ List.mem_cons_self)
    exact (if_neg hnot).trans (hother q hne hq hheld hrw)

theorem Step.exclusive (h : Step g c K s s') (hc : c) (hs : FrameInv g s)
    (hex : Exclusive g s) : Exclusive g s' := by
  intro q hq hheld hrw
  cases h with
  | other frames ref page tables phys empty0 empty1 =>
      have hq' : Editable g s q := by
        refine ⟨?_, hq.ordinary⟩
        have := hq.counted
        rwa [Counted, tables, empty0, empty1] at this
      rw [page] at hheld hrw ⊢
      rw [ref]
      exact hex q hq' hheld hrw
  | scratch p f hp =>
      have hne : q ≠ p := by
        rcases hp with rfl | rfl
        · exact hq.counted.2.1
        · exact hq.counted.2.2
      rw [Kernel.page_setEntry_of_ne _ _ hne] at hheld hrw ⊢
      exact hex q ⟨hq.counted, hq.ordinary⟩ hheld hrw
  | flags p m inside hp addr shape sole =>
      rcases eq_or_ne q p with rfl | hne
      · rw [Kernel.page_setEntry_self] at hheld hrw ⊢
        rw [addr] at hheld ⊢
        have hsole : Sole g s q := hrw.elim (fun e => sole hc e hheld) Or.inl
        exact hsole.elim (fun hk => hex q hp hheld (.inr hk)) id
      · rw [Kernel.page_setEntry_of_ne _ _ hne] at hheld hrw ⊢
        exact hex q ⟨hq.counted, hq.ordinary⟩ hheld hrw
  | write p bytes inside hp held sole => exact hex q ⟨hq.counted, hq.ordinary⟩ hheld hrw
  | take p f rest m inside hp top zero addr present allocable =>
      exact exclusive_take hs rfl top addr (fun r _ hr => hex r hr)
        ⟨hq.counted, hq.ordinary⟩ hheld hrw
  | replace p f rest m inside hp top held many addr present allocable =>
      refine exclusive_take hs rfl top addr (fun r _ hr hr0 hrw => ?_)
        ⟨hq.counted, hq.ordinary⟩ hheld hrw
      have hone := hex r hr hr0 hrw
      have hne : (s.page r).addr ≠ (s.page p).addr := fun e => many (e ▸ hone)
      exact (if_neg hne).trans hone
  | free p inside hp =>
      by_cases hzero : (s.page p).addr = 0
      · rw [free_of_zero hzero] at hq hheld hrw ⊢
        exact hex q hq hheld hrw
      · by_cases hone : s.frameRefCnt (s.page p).addr = 1
        · rw [free_of_one hzero hone] at hq hheld hrw ⊢
          have hne : q ≠ p := by
            rintro rfl
            rw [Kernel.page_setEntry_self] at hheld
            exact hheld rfl
          rw [Kernel.page_setEntry_of_ne _ _ hne] at hheld hrw ⊢
          have hdiff : (s.page q).addr ≠ (s.page p).addr := fun e =>
            hne (Sound.eq_of_ref_one hs hp ⟨hq.counted, hq.ordinary⟩ e hzero hone)
          exact (if_neg hdiff).trans (hex q ⟨hq.counted, hq.ordinary⟩ hheld hrw)
        · rw [free_of_many hzero hone] at hq hheld hrw ⊢
          have hne : q ≠ p := by
            rintro rfl
            rw [Kernel.page_setEntry_self] at hheld
            exact hheld rfl
          rw [Kernel.page_setEntry_of_ne _ _ hne] at hheld hrw ⊢
          have hq1 := hex q ⟨hq.counted, hq.ordinary⟩ hheld hrw
          have hdiff : (s.page q).addr ≠ (s.page p).addr := fun e => hone (e ▸ hq1)
          exact (if_neg hdiff).trans hq1
  | newTable t inside fresh aligned =>
      have hne : q.table ≠ t := by
        intro e
        have : ((Page.newTable t s).2.page q).addr = 0 :=
          congrArg TableEntry.addr (if_pos e : _ = TableEntry.zero)
        exact hheld this
      have hpage : (Page.newTable t s).2.page q = s.page q := if_neg hne
      rw [hpage] at hheld hrw ⊢
      exact hex q ⟨⟨(List.mem_cons.mp hq.counted.1).resolve_left hne, hq.counted.2⟩,
        hq.ordinary⟩ hheld hrw
  | share dest src i inside hdest hsrc destUser srcUser zero held =>
      rw [cloneEntry_of_held held] at hq hheld hrw ⊢
      have hdest : q ≠ ⟨dest, i⟩ := by
        rintro rfl
        rw [Kernel.page_setRef, Kernel.page_setEntry_self] at hrw
        exact hrw.elim Bool.false_ne_true destUser
      rw [Kernel.page_setRef, Kernel.page_setEntry_of_ne _ _ hdest] at hheld hrw ⊢
      have hsrc' : q ≠ ⟨src, i⟩ := by
        rintro rfl
        rw [Kernel.page_setEntry_self] at hrw
        exact hrw.elim Bool.false_ne_true srcUser
      rw [Kernel.page_setEntry_of_ne _ _ hsrc'] at hheld hrw ⊢
      have hq' : Editable g s q := ⟨hq.counted, hq.ordinary⟩
      have hone := hex q hq' hheld hrw
      have hdiff : (s.page q).addr ≠ (s.page ⟨src, i⟩).addr := fun e =>
        hsrc' (Sound.eq_of_ref_one hs hq' hsrc e.symm hheld hone).symm
      exact (if_neg hdiff).trans hone

theorem Step.sound (h : Step g c K s s') (hs : Sound g c s) : Sound g c s' :=
  ⟨h.frameInv hs.frames, fun _ hq => h.shaped hs.frames hs.shaped hq,
    fun hc => h.exclusive hc hs.frames (hs.exclusive hc)⟩

/-! ## Entries outside the footprint -/

/-- The entry `e'` is `e`, perhaps without its write permission. -/
def Weaker (e e' : TableEntry) : Prop := e' = e ∨ e' = { e with rw := false }

namespace Weaker

variable {e e' e'' : TableEntry}

theorem refl : Weaker e e := .inl rfl

theorem trans (h : Weaker e e') (h' : Weaker e' e'') : Weaker e e'' := by
  rcases h with rfl | rfl <;> rcases h' with rfl | rfl
  · exact .inl rfl
  · exact .inr rfl
  · exact .inr rfl
  · exact .inr rfl

theorem addr (h : Weaker e e') : e'.addr = e.addr := by
  rcases h with rfl | rfl <;> rfl

theorem user (h : Weaker e e') : e'.user = e.user := by
  rcases h with rfl | rfl <;> rfl

theorem allocable (h : Weaker e e') : e'.allocable = e.allocable := by
  rcases h with rfl | rfl <;> rfl

theorem allocFill (h : Weaker e e') : e'.allocFill = e.allocFill := by
  rcases h with rfl | rfl <;> rfl

theorem rw_false (h : Weaker e e') (hrw : e.rw = false) : e'.rw = false := by
  rcases h with rfl | rfl
  · exact hrw
  · rfl

end Weaker

variable (g) in
/-- An entry outside the tables of the kernel may lose its write permission, and nothing
else happens. -/
def Kept (s s' : Kernel) (p : Slot) : Prop :=
  s'.page p = s.page p ∨ p.table ∉ g.kernel ∧ s'.page p = { s.page p with rw := false }

namespace Kept

theorem weaker (h : Kept g s s' p) : Weaker (s.page p) (s'.page p) := h.imp_right And.right

theorem addr (h : Kept g s s' p) : (s'.page p).addr = (s.page p).addr := h.weaker.addr

theorem of_kernel (h : Kept g s s' p) (hk : p.table ∈ g.kernel) : s'.page p = s.page p :=
  h.resolve_right fun hnot => hnot.1 hk

theorem trans {s'' : Kernel} (h : Kept g s s' p) (h' : Kept g s' s'' p) : Kept g s s'' p := by
  by_cases hk : p.table ∈ g.kernel
  · exact .inl ((h'.of_kernel hk).trans (h.of_kernel hk))
  · exact (h.weaker.trans h'.weaker).imp_right fun e => ⟨hk, e⟩

end Kept

theorem Step.kept (h : Step g c K s s') (hp : Editable g s p) (hK : p ∉ K) :
    Kept g s s' p := by
  have hne : ∀ {q}, q ∈ K → p ≠ q := fun hq e => hK (e ▸ hq)
  cases h with
  | other frames ref page tables phys empty0 empty1 => exact .inl (by rw [page])
  | scratch q f hq =>
      have hne : p ≠ q := by
        rcases hq with rfl | rfl
        · exact hp.counted.2.1
        · exact hp.counted.2.2
      exact .inl (Kernel.page_setEntry_of_ne _ _ hne)
  | flags q m inside hq addr shape sole => exact .inl (Kernel.page_setEntry_of_ne _ _ (hne inside))
  | write q bytes inside hq held sole => exact .inl rfl
  | take q f rest m inside hq top zero addr present allocable =>
      exact .inl (Kernel.page_setEntry_of_ne _ _ (hne inside))
  | replace q f rest m inside hq top held many addr present allocable =>
      exact .inl (Kernel.page_setEntry_of_ne _ _ (hne inside))
  | free q inside hq =>
      refine .inl ?_
      by_cases hzero : (s.page q).addr = 0
      · rw [free_of_zero hzero]
      · by_cases hone : s.frameRefCnt (s.page q).addr = 1
        · rw [free_of_one hzero hone]
          exact Kernel.page_setEntry_of_ne _ _ (hne inside)
        · rw [free_of_many hzero hone]
          exact Kernel.page_setEntry_of_ne _ _ (hne inside)
  | newTable t inside fresh aligned =>
      exact .inl (if_neg fun e : p.table = t => fresh (e ▸ hp.counted.1))
  | share dest src i inside hdest hsrc destUser srcUser zero held =>
      rw [cloneEntry_of_held held]
      unfold Kept
      rw [Kernel.page_setRef, Kernel.page_setEntry_of_ne _ _ (hne inside)]
      rcases eq_or_ne p ⟨src, i⟩ with rfl | hsrc'
      · exact .inr ⟨srcUser, Kernel.page_setEntry_self _ _ _⟩
      · exact .inl (Kernel.page_setEntry_of_ne _ _ hsrc')

/-- Under copy-on-write, only entries of the footprint see their frames change. -/
theorem Step.phys_kept (h : Step g c K s s') (hc : c) (hs : Sound g c s)
    (hp : Editable g s p) (hK : p ∉ K) :
    s'.phys (s.page p).addr = s.phys (s.page p).addr := by
  cases h with
  | other frames ref page tables phys empty0 empty1 => rw [phys]
  | write q bytes inside hq held sole =>
      refine if_neg fun e => hK ?_
      rw [hs.eq_of_sole hc hq hp e held (sole hc)]
      exact inside
  | free q inside hq =>
      by_cases hzero : (s.page q).addr = 0
      · rw [free_of_zero hzero]
      · by_cases hone : s.frameRefCnt (s.page q).addr = 1
        · rw [free_of_one hzero hone]
          rfl
        · rw [free_of_many hzero hone]
          rfl
  | share dest src i inside hdest hsrc destUser srcUser zero held =>
      rw [cloneEntry_of_held held]
      rfl
  | _ => rfl

/-! ## Many steps -/

variable (g c K) in
/-- Any number of steps. -/
abbrev Steps : Kernel → Kernel → Prop := Relation.ReflTransGen (Step g c K)

theorem Step.mono {K' : Set Slot} (h : Step g c K s s') (hK : K ⊆ K') : Step g c K' s s' := by
  cases h with
  | other frames ref page tables phys empty0 empty1 =>
      exact .other frames ref page tables phys empty0 empty1
  | scratch p f hp => exact .scratch p f hp
  | flags p m inside hp addr shape sole => exact .flags p m (hK inside) hp addr shape sole
  | write p bytes inside hp held sole => exact .write p bytes (hK inside) hp held sole
  | take p f rest m inside hp top zero addr present allocable =>
      exact .take p f rest m (hK inside) hp top zero addr present allocable
  | replace p f rest m inside hp top held many addr present allocable =>
      exact .replace p f rest m (hK inside) hp top held many addr present allocable
  | free p inside hp => exact .free p (hK inside) hp
  | newTable t inside fresh aligned => exact .newTable t (fun i => hK (inside i)) fresh aligned
  | share dest src i inside hdest hsrc destUser srcUser zero held =>
      exact .share dest src i (hK inside) hdest hsrc destUser srcUser zero held

namespace Steps

theorem mono {K' : Set Slot} (h : Steps g c K s s') (hK : K ⊆ K') : Steps g c K' s s' :=
  Relation.ReflTransGen.mono (fun _ _ h => h.mono hK) _ _ h

theorem sound (h : Steps g c K s s') (hs : Sound g c s) : Sound g c s' := by
  induction h with
  | refl => exact hs
  | tail _ hstep ih => exact hstep.sound ih

theorem editable (h : Steps g c K s s') (hp : Editable g s p) : Editable g s' p := by
  induction h with
  | refl => exact hp
  | tail _ hstep ih => exact hstep.editable ih

theorem kept (h : Steps g c K s s') (hp : Editable g s p) (hK : p ∉ K) : Kept g s s' p := by
  induction h with
  | refl => exact .inl rfl
  | tail hsteps hstep ih => exact ih.trans (hstep.kept (editable hsteps hp) hK)

theorem phys_kept (h : Steps g c K s s') (hc : c) (hs : Sound g c s)
    (hp : Editable g s p) (hK : p ∉ K) :
    s'.phys (s.page p).addr = s.phys (s.page p).addr := by
  induction h with
  | refl => rfl
  | @tail t u hsteps hstep ih =>
      have haddr := (kept hsteps hp hK).addr
      have hstep' := hstep.phys_kept hc (sound hsteps hs) (editable hsteps hp) hK
      rw [haddr] at hstep'
      exact hstep'.trans ih

/-- Pages outside the footprint look the same. -/
theorem view_eq (h : Steps g c K s s') (hc : c) (hs : Sound g c s)
    (hp : Editable g s p) (hK : p ∉ K) : view s' p = view s p := by
  have hkept := (kept h hp hK).weaker
  unfold view
  rw [hkept.addr, hkept.allocable, hkept.allocFill, phys_kept h hc hs hp hK]

end Steps

end Jkos.Page
