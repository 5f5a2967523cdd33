import Jkos.Page.Tlb

/-!
# What is left of a freed page

`free` acts on an entry that has a frame, and `free_interval` on one that is present. Both
pass over a page that `lazy_alloc` has opened and nobody has touched yet: it stays open, and
an access to it is still served. All other pages are closed afterwards. `free_interval`
flushes what it frees; `free` does not, and the processor may go on with an entry that it
keeps.
-/

namespace Jkos.Page

open Exec Kheap

variable {g : Layout} {c : Prop} {s s' s₀ s₁ : Kernel} {p : Slot} {F : Multiset Block}
  {d addr start stop eip : Word} {write : Bool} {tlb : Tlb}

/-- Opened by `lazy_alloc` and not touched since. -/
def Untouched (s : Kernel) (d addr : Word) : Prop :=
  ∃ p, lookup s d addr = some p ∧ (s.page p).addr = 0 ∧ (s.page p).allocable = true

def Present (s : Kernel) (d addr : Word) : Prop :=
  ∃ p, lookup s d addr = some p ∧ (s.page p).present = true

/-- The processor keeps an entry of the page, which the current directory has. -/
def Cached (m : Mmu) (d addr : Word) : Prop :=
  (m.kernel.currentPageDir = d ∨ KernelIdx m.kernel (tbIdx addr)) ∧ m.tlb (pageOf addr) ≠ none

/-- What a freed page is meant to be: without a frame, not present, not allocable, and out
of reach in every later state until it is allocated again. -/
structure Revoked (m : Mmu) (d i : Word) : Prop where
  entry : ∀ p, lookup m.kernel d i = some p → (m.kernel.page p).addr = 0 ∧
    (m.kernel.page p).present = false ∧ (m.kernel.page p).allocable = false
  refused : ∀ m', MmuRuns (PageOp.Spares d i) m m' →
    m'.kernel.currentPageDir = d ∨ KernelIdx m'.kernel (tbIdx i) → ∀ addr, pageOf addr = i →
      ∀ write eip, ∃ errCode,
        m'.access addr write eip = (.error (.pageFault addr errCode), m'.kernel)

/-! ## What `free` does to an entry -/

/-- The entry afterwards: closed, unless it was open without a frame. -/
def Closes (e e' : TableEntry) : Prop :=
  e'.addr = 0 ∧ e'.present = false ∧ (e'.allocable = true ↔ e.addr = 0 ∧ e.allocable = true)

theorem closes_of_zero {e : TableEntry} (hshape : Shape e) (hzero : e.addr = 0) : Closes e e := by
  refine ⟨hzero, ?_, by simp [hzero]⟩
  rw [Bool.eq_false_iff]
  exact fun hpresent => hshape.1.mp hpresent hzero

theorem free_apply_closes (hs : Shape (s.page p)) :
    Closes (s.page p) ((free p s).2.page p) := by
  have hfreed : (s.page p).addr ≠ 0 →
      Closes (s.page p) { s.page p with addr := 0, present := false, allocable := false } :=
    fun hheld => ⟨rfl, rfl, fun h => absurd h Bool.false_ne_true,
      fun h => absurd h.1 hheld⟩
  by_cases hzero : (s.page p).addr = 0
  · rw [free_of_zero hzero]
    exact closes_of_zero hs hzero
  · by_cases hone : s.frameRefCnt (s.page p).addr = 1
    · rw [free_of_one hzero hone, Kernel.page_setEntry_self]
      exact hfreed hzero
    · rw [free_of_many hzero hone, Kernel.page_setEntry_self]
      exact hfreed hzero

theorem Closes.of_weaker {e e' e'' : TableEntry} (h : Closes e' e'') (hw : Weaker e e') :
    Closes e e'' := by
  rw [Closes, ← hw.addr, ← hw.allocable]
  exact h

theorem Closes.weaker {e e' e'' : TableEntry} (h : Closes e e') (hw : Weaker e' e'') :
    Closes e e'' := by
  obtain rfl | rfl := hw
  · exact h
  · exact h

/-- What the loop of `free_interval` has done when it comes to the page `j`. -/
structure Freeing (d start stop : Word) (s : Kernel) (j : Word) (s' : Kernel) : Prop where
  work : Work g False Set.univ s s'
  done : ∀ i, pageOf i = i → start ≤ i → i < j → ∀ p, lookup s d i = some p →
    Closes (s.page p) (s'.page p)
  ahead : ∀ i, pageOf i = i → j ≤ i → i < stop → ∀ p, lookup s d i = some p →
    Weaker (s.page p) (s'.page p)

/-- One round of the loop. -/
theorem Freeing.next {j : Word} (h : Running g False F s) (hd : d ∈ s.dirs)
    (hpages : ∀ i, start ≤ i → i < stop → OrdinaryPage s i) (halign : pageOf stop = stop)
    (hj : pageOf j = j) (hle : start ≤ j) (hlt : j < stop)
    (hf : Freeing (g := g) d start stop s j s') :
    Ends (do
        match ← read (lookup · d j) with
        | none => pure ()
        | some p => if (← read (·.page p)).present = true then free p else pure ()) s'
      (fun _ s'' => Freeing (g := g) d start stop s (j + 0x1000) s'') (fun _ _ => False) := by
  obtain ⟨hnext, -, -⟩ := next_page hj halign hlt
  have hs' := h.work hf.work
  have hsplit : ∀ i, pageOf i = i → i < j + 0x1000 → i < j ∨ i = j := by
    intro i hi hij
    rw [BitVec.lt_def, hnext] at hij
    rw [BitVec.lt_def, ← BitVec.toNat_inj]
    have hi' := congrArg BitVec.toNat hi
    have hj' := congrArg BitVec.toNat hj
    rw [toNat_pageOf] at hi' hj'
    omega
  have hbehind : ∀ i, j + 0x1000 ≤ i → j ≤ i := by
    intro i hij
    rw [BitVec.le_def, hnext] at hij
    rw [BitVec.le_def]
    omega
  rw [Ends.bind_read, hf.work.lookup_eq]
  cases hlook : lookup s d j with
  | none =>
      refine ⟨hf.work, fun i hi hstart hij p hp => ?_,
        fun i hi hji => hf.ahead i hi (hbehind i hji)⟩
      obtain hlt' | rfl := hsplit i hi hij
      · exact hf.done i hi hstart hlt' p hp
      · rw [hlook] at hp
        cases hp
  | some q =>
      have hq := h.linked.editable hd hlook (hpages j hle hlt).1 (hpages j hle hlt).2
      have hq' := hf.work.steps.editable hq
      have hshape := hs'.sound.shaped q hq'
      have hself := hf.ahead j hj (BitVec.le_refl j) hlt q hlook
      have hresult : ∀ s'', Work g False {q} s' s'' → Closes (s'.page q) (s''.page q) →
          Freeing (g := g) d start stop s (j + 0x1000) s'' := by
        intro s'' hw hcloses
        have hother : ∀ i, start ≤ i → i < stop → pageOf i ≠ pageOf j → ∀ p,
            lookup s d i = some p → Weaker (s'.page p) (s''.page p) := by
          intro i hstart hstop hne p hp
          have hp' := h.linked.editable hd hp (hpages i hstart hstop).1 (hpages i hstart hstop).2
          refine (hw.steps.kept (hf.work.steps.editable hp') ?_).weaker
          rintro rfl
          exact hne (h.linked.pageOf_eq_of_lookup hd hp hlook)
        refine ⟨hf.work.trans (hw.mono (Set.subset_univ _)), fun i hi hstart hij p hp => ?_,
          fun i hi hji hstop p hp => ?_⟩
        · obtain hlt' | rfl := hsplit i hi hij
          · have hne : pageOf i ≠ pageOf j := by
              rw [hi, hj]
              rintro rfl
              exact BitVec.lt_irrefl _ hlt'
            have hstop : i < stop := by
              rw [BitVec.lt_def] at hlt' hlt ⊢
              omega
            exact (hf.done i hi hstart hlt' p hp).weaker (hother i hstart hstop hne p hp)
          · obtain rfl := Option.some.inj (hlook.symm.trans hp)
            exact hcloses.of_weaker hself
        · have hne : pageOf i ≠ pageOf j := by
            rw [hi, hj]
            rintro rfl
            rw [BitVec.le_def, hnext] at hji
            omega
          have hstart : start ≤ i := by
            have := hbehind i hji
            rw [BitVec.le_def] at this hle ⊢
            omega
          exact (hf.ahead i hi (hbehind i hji) hstop p hp).trans (hother i hstart hstop hne p hp)
      dsimp only
      rw [Ends.bind_read]
      split
      · have hw : Work g False {q} s' (free q s').2 := free_ends rfl hq'
        exact hresult _ hw (free_apply_closes hshape)
      · next hnot =>
          have hzero : (s'.page q).addr = 0 := by
            by_contra hheld
            exact hnot (hshape.1.mpr hheld)
          exact hresult s' .refl (closes_of_zero hshape hzero)

/-- `free_interval` closes the pages of the interval that had a frame. -/
theorem freeInterval_closes (h : Running g False F s) (hd : d ∈ s.dirs)
    (hstart : pageOf start = start) (hstop : pageOf stop = stop)
    (hpages : ∀ i, start ≤ i → i < stop → OrdinaryPage s i) :
    Ends (freeInterval d start stop) s (fun _ s' => Work g False Set.univ s s' ∧
      ∀ i, pageOf i = i → start ≤ i → i < stop → ∀ p, lookup s d i = some p →
        Closes (s.page p) (s'.page p)) (fun _ _ => False) := by
  have hbegin : Freeing (g := g) d start stop s start s := by
    refine ⟨.refl, fun i _ hle hlt => ?_, fun _ _ _ _ _ _ => .refl⟩
    rw [BitVec.le_def] at hle
    rw [BitVec.lt_def] at hlt
    omega
  refine (interval_ends (fun j s' => Freeing (g := g) d start stop s j s') hbegin
    (fun j s₁ hj hle hlt hf => hf.next h hd hpages hstop hj hle hlt)
    (fun hnot => hnot ⟨hstart, hstop⟩)).mono ?_ (fun _ _ h => h)
  rintro - s' ⟨j, hj, hf⟩
  refine ⟨hf.work, fun i hi hle hlt p hp => hf.done i hi hle ?_ p hp⟩
  rw [BitVec.le_def] at hj
  rw [BitVec.lt_def] at hlt ⊢
  omega

/-! ## Freed pages -/

theorem tbIdx_pageOf (a : Word) : tbIdx (pageOf a) = tbIdx a :=
  (idx_eq_of_pageOf (pageOf_pageOf a)).1

/-- An entry that the processor keeps grants something. -/
theorem Cached.access (hl : Linked g s) (hcached : Cached ⟨s, tlb⟩ d addr) :
    ∃ f, (⟨s, tlb⟩ : Mmu).access addr false 0 = (.ok f, s) := by
  obtain ⟨e, he⟩ := Option.ne_none_iff_exists'.mp hcached.2
  have he : tlb (pageOf addr) = some e := he
  have hkernel : decide (s.kernelCodeEnd ≤ 0) = false := by
    rw [decide_eq_false_iff_not, BitVec.le_def]
    intro hle
    exact hl.code (Word.ext_toNat (Nat.le_zero.mp hle))
  refine ⟨e.addr, ?_⟩
  simp only [Mmu.access, he, hkernel]
  exact if_pos (by simp [TableEntry.permits])

/-- A page whose entry was treated by `free` is revoked unless it was open and untouched, or
the processor keeps an entry of it. -/
theorem revoked_iff (tlb : Tlb) (h : Running g False F s) (hd : d ∈ s.dirs)
    (haddr : OrdinaryPage s addr) (hwork : Work g False Set.univ s s')
    (hcloses : ∀ p, lookup s d addr = some p → Closes (s.page p) (s'.page p)) :
    Revoked ⟨s', tlb⟩ d (pageOf addr) ↔ ¬ Untouched s d addr ∧ ¬ Cached ⟨s', tlb⟩ d addr := by
  have hs' := h.work hwork
  have hd' : d ∈ s'.dirs := by
    rw [hwork.dirs_eq]
    exact hd
  constructor
  · intro hrevoked
    constructor
    · rintro ⟨p, hp, hzero, hopen⟩
      have hlook : lookup s' d (pageOf addr) = some p := by
        rw [lookup_pageOf, hwork.lookup_eq]
        exact hp
      have hentry := hrevoked.entry p hlook
      have hstill := (hcloses p hp).2.2.mpr ⟨hzero, hopen⟩
      exact absurd (hstill.symm.trans hentry.2.2) (by decide)
    · intro hcached
      obtain ⟨f, hgranted⟩ := hcached.access hs'.linked
      have hdir := hcached.1
      rw [← tbIdx_pageOf] at hdir
      obtain ⟨errCode, hrefused⟩ := hrevoked.refused ⟨s', tlb⟩ .refl hdir addr rfl false 0
      cases hgranted.symm.trans hrefused
  · rintro ⟨huntouched, hcached⟩
    have hentry : ∀ p, lookup s' d (pageOf addr) = some p →
        (s'.page p).addr = 0 ∧ (s'.page p).present = false ∧ (s'.page p).allocable = false := by
      intro p hp
      rw [lookup_pageOf, hwork.lookup_eq] at hp
      obtain ⟨hzero, hpresent, hiff⟩ := hcloses p hp
      refine ⟨hzero, hpresent, ?_⟩
      rw [Bool.eq_false_iff]
      exact fun hopen => huntouched ⟨p, hp, hiff.mp hopen⟩
    refine ⟨hentry, fun m' hruns hdir a ha write eip => ?_⟩
    have hout : OutOfReach d (pageOf addr) ⟨s', tlb⟩ := by
      refine ⟨fun p hp => (hentry p hp).2.2, fun hdir => ?_⟩
      rw [tbIdx_pageOf] at hdir
      exact Decidable.not_not.mp fun hne => hcached ⟨hdir, hne⟩
    have haddr' : OrdinaryPage s' (pageOf addr) := by
      rw [ordinaryPage_pageOf, OrdinaryPage, IdentityPage, hwork.env.staticEnd,
        hwork.env.scratchPage_iff]
      exact haddr
    obtain ⟨hout', ⟨F', hm'⟩, hd'', hordinary⟩ :=
      hout.runs hs' hd' haddr' (pageOf_pageOf addr) hruns
    exact hout'.refused hm' hd'' hordinary hdir ha write eip

/-- Freeing works for a page exactly if it was not open and untouched and the processor keeps no
entry of it; and for an interval, exactly if no page was open and untouched and the processor
keeps none of an absent page. -/
theorem free_revoked_iff (hboot : Booted g s₀) (hinit : initEmptyPages s₀ = (.ok (), s₁))
    (hrun : PageRuns s₁ s) (hd : d ∈ s.dirs) (tlb : Tlb) :
    (∀ addr p, PlainPage s addr → lookup s d addr = some p →
      ∃ s', free p s = (.ok (), s') ∧ (Revoked ⟨s', tlb⟩ d (pageOf addr) ↔
        ¬ Untouched s d addr ∧ ¬ Cached ⟨s, tlb⟩ d addr)) ∧
    ∀ start stop, pageOf start = start → pageOf stop = stop →
      (∀ i, start ≤ i → i < stop → PlainPage s i) →
      ∃ s', freeInterval d start stop s = (.ok (), s') ∧
        let flushed : Tlb := fun i =>
          if (PageOp.freeInterval d start stop).flushes s i = true then none else tlb i
        ((∀ i, pageOf i = i → start ≤ i → i < stop → Revoked ⟨s', flushed⟩ d i) ↔
          ∀ i, pageOf i = i → start ≤ i → i < stop →
            ¬ Untouched s d i ∧ (Cached ⟨s, tlb⟩ d i → Present s d i)) := by
  obtain ⟨F, hs⟩ := hrun.of_boot hboot hinit
  have hcached : ∀ {s' : Kernel} {tlb' : Tlb} {addr : Word}, Work g False Set.univ s s' →
      (Cached ⟨s', tlb'⟩ d addr ↔ Cached ⟨s, tlb'⟩ d addr) := by
    intro s' tlb' addr hw
    simp only [Cached, KernelIdx, hw.env.current, hw.env.low]
  constructor
  · intro addr p haddr hlook
    have hp := hs.linked.editable hd hlook haddr.1.1 haddr.1.2
    have hw : Work g False {p} s (free p s).2 := free_ends rfl hp
    have hw' := hw.mono (Set.subset_univ _)
    have hiff := revoked_iff tlb hs hd haddr.1 hw' fun q hq => by
      obtain rfl := Option.some.inj (hlook.symm.trans hq)
      exact free_apply_closes (hs.sound.shaped p hp)
    rw [hcached hw'] at hiff
    exact ⟨(free p s).2, rfl, hiff⟩
  · intro start stop hstart hstop hpages
    have hordinary := fun i hle hlt => (hpages i hle hlt).1
    have hends := freeInterval_closes hs hd hstart hstop hordinary
    obtain ⟨⟨⟩, s', hrun', hw, hcloses⟩ := hends.returns fun _ _ h => h
    refine ⟨s', hrun', forall_congr' fun i => forall_congr' fun hi => forall_congr' fun hle =>
      forall_congr' fun hlt => ?_⟩
    have hiff := revoked_iff
      (fun i => if (PageOp.freeInterval d start stop).flushes s i = true then none else tlb i)
      hs hd (hordinary i hle hlt) hw (hcloses i hi hle hlt)
    rw [hi] at hiff
    rw [hiff, hcached hw]
    refine and_congr_right fun _ => ?_
    -- the entry is flushed exactly if the page is present
    have hflushes : (PageOp.freeInterval d start stop).flushes s i = true ↔ Present s d i := by
      simp only [PageOp.flushes, Present, hle, hlt, and_self, decide_true, Bool.true_and]
      cases lookup s d i <;> simp
    by_cases hpresent : Present s d i
    · refine iff_of_true (fun hkept => hkept.2 ?_) fun _ => hpresent
      rw [hi]
      exact if_pos (hflushes.mpr hpresent)
    · have hsame : (if (PageOp.freeInterval d start stop).flushes s (pageOf i) = true then none
          else tlb (pageOf i)) = tlb (pageOf i) := by
        rw [hi]
        exact if_neg fun hf => hpresent (hflushes.mp hf)
      simp only [Cached, hsame, hpresent]

/-! ## A page of the heap -/

theorem pageOf_heapPage {i : Word} (hle : 0xEFC10000 ≤ i) (hlt : i < 0xEFC11000) :
    pageOf i = 0xEFC10000 :=
  pageOf_of_mem (by decide) hle hlt

/-- The pages of the interval are those of its only page. -/
theorem plain_heapPage (h : PlainPage s 0xEFC10000) :
    ∀ i : Word, 0xEFC10000 ≤ i → i < 0xEFC11000 → PlainPage s i := by
  intro i hle hlt
  have hi := pageOf_heapPage hle hlt
  refine ⟨?_, ?_⟩
  · rw [← ordinaryPage_pageOf, hi]
    exact h.1
  · rw [HoldsTable, hi]
    exact h.2

/-- The boot kernel with one more page that nobody has touched. -/
@[irreducible] def bootLazy : Kernel :=
  ((PageOp.lazyAlloc 0x2E0000 0xEFC10000 true true true).exec bootStarted).2

theorem bootLazy_facts :
    ((PageOp.lazyAlloc 0x2E0000 0xEFC10000 true true true).exec bootStarted).1.toOption = some () ∧
    PlainPage bootLazy 0xEFC10000 ∧ 0x2E0000 ∈ bootLazy.dirs ∧
    (lookup bootLazy 0x2E0000 0xEFC10000).map (fun p =>
      decide ((bootLazy.page p).addr = 0 ∧ (bootLazy.page p).allocable = true)) = some true := by
  unfold PlainPage OrdinaryPage IdentityPage ScratchPage HoldsTable
  decide +kernel

theorem bootLazy_run :
    (PageOp.lazyAlloc 0x2E0000 0xEFC10000 true true true).exec bootStarted =
      (.ok (), bootLazy) := by
  rw [bootLazy]
  exact eq_ok_of_toOption bootLazy_facts.1

theorem bootLazy_runs : PageRuns bootStarted bootLazy :=
  .single ⟨.lazyAlloc 0x2E0000 0xEFC10000 true true true,
    ⟨by rw [bootStarted_dirs]; decide, bootStarted_plain⟩, bootLazy_run⟩

theorem bootLazy_untouched : Untouched bootLazy 0x2E0000 0xEFC10000 := by
  obtain ⟨p, hp, hopen⟩ := Option.map_eq_some_iff.mp bootLazy_facts.2.2.2
  exact ⟨p, hp, of_decide_eq_true hopen⟩

/-- A page that was opened lazily and never touched survives `free_interval`, whatever the
processor keeps. -/
theorem bootLazy_not_revoked : PageRuns bootStarted bootLazy ∧
    ∃ s', freeInterval 0x2E0000 0xEFC10000 0xEFC11000 bootLazy = (.ok (), s') ∧
      ∀ tlb, ¬ Revoked ⟨s', tlb⟩ 0x2E0000 0xEFC10000 := by
  obtain ⟨F, hs⟩ := bootLazy_runs.of_boot bootKernel_booted bootStarted_run
  have hd := bootLazy_facts.2.2.1
  have hpages := fun i hle hlt => (plain_heapPage bootLazy_facts.2.1 i hle hlt).1
  have hends : Ends (freeInterval 0x2E0000 0xEFC10000 0xEFC11000) bootLazy _ _ :=
    freeInterval_closes hs hd (by decide) (by decide) hpages
  obtain ⟨⟨⟩, s', hrun, hw, hcloses⟩ := hends.returns fun _ _ h => h
  refine ⟨bootLazy_runs, s', hrun, fun tlb hrevoked => ?_⟩
  have hcloses' := hcloses 0xEFC10000 (by decide) (by decide) (by decide)
  exact ((revoked_iff tlb hs hd (hpages _ (by decide) (by decide)) hw hcloses').mp hrevoked).1
    bootLazy_untouched

theorem bootMapped_present : Present bootMapped 0x2E0000 0xEFC10000 ∧
    ¬ Untouched bootMapped 0x2E0000 0xEFC10000 := by
  obtain ⟨-, -, hplain, hd, hheld⟩ := bootMapped_facts
  have hruns : PageRuns bootStarted bootMapped := .single ⟨_, bootMapped_step⟩
  obtain ⟨F, hs⟩ := hruns.of_boot bootKernel_booted bootStarted_run
  obtain ⟨p, hp, hheld⟩ := Option.map_eq_some_iff.mp hheld
  have hheld := of_decide_eq_true hheld
  have hedit := hs.linked.editable hd hp hplain.1.1 hplain.1.2
  refine ⟨⟨p, hp, (hs.sound.shaped p hedit).1.mpr hheld⟩, ?_⟩
  rintro ⟨q, hq, hzero, -⟩
  obtain rfl := Option.some.inj (hp.symm.trans hq)
  exact hheld hzero

/-- The processor has kept the entry of the page. -/
def bootKept : Tlb := fun i =>
  if i = 0xEFC10000 then (lookup bootMapped 0x2E0000 i).map bootMapped.page else none

/-- `free_interval` puts the page out of reach. `free` does so only if the processor keeps no
entry of it. -/
theorem bootMapped_revoked :
    (∃ s', freeInterval 0x2E0000 0xEFC10000 0xEFC11000 bootMapped = (.ok (), s') ∧
      Revoked ⟨s', fun i => if (PageOp.freeInterval 0x2E0000 0xEFC10000 0xEFC11000).flushes
        bootMapped i = true then none else bootKept i⟩ 0x2E0000 0xEFC10000) ∧
    ∃ p, lookup bootMapped 0x2E0000 0xEFC10000 = some p ∧
      ¬ Revoked ⟨(free p bootMapped).2, bootKept⟩ 0x2E0000 0xEFC10000 ∧
      Revoked ⟨(free p bootMapped).2, fun _ => none⟩ 0x2E0000 0xEFC10000 := by
  obtain ⟨-, -, hplain, hd, -⟩ := bootMapped_facts
  obtain ⟨hpresent, hnot⟩ := bootMapped_present
  have hruns : PageRuns bootStarted bootMapped := .single ⟨_, bootMapped_step⟩
  constructor
  · obtain ⟨s', hrun, hiff⟩ := (free_revoked_iff bootKernel_booted bootStarted_run hruns hd
      bootKept).2 0xEFC10000 0xEFC11000 (by decide) (by decide) (plain_heapPage hplain)
    refine ⟨s', hrun, hiff.mpr (fun i hi hle hlt => ?_) _ (by decide) (by decide) (by decide)⟩
    rw [pageOf_heapPage hle hlt] at hi
    rw [← hi]
    exact ⟨hnot, fun _ => hpresent⟩
  · obtain ⟨p, hp, -⟩ := id hpresent
    obtain ⟨s', hrun, hiff⟩ := (free_revoked_iff bootKernel_booted bootStarted_run hruns hd
      bootKept).1 0xEFC10000 p hplain hp
    obtain ⟨s'', hrun', hiff'⟩ := (free_revoked_iff bootKernel_booted bootStarted_run hruns hd
      fun _ => none).1 0xEFC10000 p hplain hp
    cases hrun
    cases hrun'
    refine ⟨p, hp, fun hrevoked => ?_, hiff'.mpr ⟨hnot, fun hcached => hcached.2 rfl⟩⟩
    have hkept : bootKept (pageOf 0xEFC10000) = some (bootMapped.page p) := by
      rw [bootKept, if_pos (by decide), lookup_pageOf, hp]
      rfl
    refine (hiff.mp hrevoked).2 ⟨.inr (.inr ⟨by decide, by decide⟩), fun hnone => ?_⟩
    cases hkept.symm.trans hnone

end Jkos.Page
