import Jkos.Page.Livelock

/-!
# Translations that the processor keeps

The processor may keep the entry that a walk of the tables has found, and use it until the
page is flushed. The functions on intervals execute `invlpg` for the pages that they change,
and a switch of directories flushes everything; `Table_entry_t::alloc`, `lazy_alloc` and
`free` flush nothing. A page that is closed, and that the processor has no translation of,
stays out of reach until it is opened again.
-/

namespace Jkos.Page

open Exec Kheap

variable {g : Layout} {c : Prop} {s s' : Kernel} {p q : Slot} {F : Multiset Block}
  {d d' addr i start stop eip : Word} {write : Bool} {op : PageOp}

/-- The entries that the processor keeps, by the addresses of their pages. -/
abbrev Tlb := Word → Option TableEntry

/-- The memory subsystem together with these entries. -/
structure Mmu where
  kernel : Kernel
  tlb : Tlb

/-- The entry grants the access. -/
def TableEntry.permits (e : TableEntry) (write user : Bool) : Prop :=
  ¬ ((user = true ∧ e.user = false) ∨ (write = true ∧ e.rw = false))

instance (e : TableEntry) (write user : Bool) : Decidable (e.permits write user) :=
  inferInstanceAs (Decidable (¬ _))

/-- An access. Unless an entry that is kept grants it, the tables decide. -/
def Mmu.access (m : Mmu) (addr : Word) (write : Bool) (eip : Word) : Except Fault Frame × Kernel :=
  match m.tlb (pageOf addr) with
  | none => Page.access addr write eip m.kernel
  | some e =>
    if e.permits write (decide (m.kernel.kernelCodeEnd ≤ eip)) then (.ok e.addr, m.kernel)
    else Page.access addr write eip m.kernel

namespace PageOp

/-- The call flushes the page at `i`: by `invlpg`, by loading `cr3`, or by a page fault. The
scratch pages, which `fill_uint32` and `copy_page_physical` flush, are left out. -/
def flushes (s : Kernel) (i : Word) : PageOp → Bool
  | .allocInterval _ start stop _ _ => decide (start ≤ i ∧ i < stop)
  | .lazyAllocInterval _ start stop _ _ _ => decide (start ≤ i ∧ i < stop)
  | .freeInterval d start stop =>
    decide (start ≤ i ∧ i < stop) && (lookup s d i).any fun p => (s.page p).present
  | .clone src =>
    decide (s.kernelLowNtable ≤ (tbIdx i).toNat ∧ (tbIdx i).toNat < heapBeginIdx) &&
      (lookup s src i).any fun p => decide ((s.page p).addr ≠ 0)
  | .access addr write eip =>
    decide (pageOf addr = i) && (walk s addr write (decide (s.kernelCodeEnd ≤ eip))).toOption.isNone
  | .enable _ => true
  | _ => false

/-- The call opens the page of `d` at `i`. The pages of the kernel are those of all
directories. -/
def Opens (s : Kernel) (d i : Word) : PageOp → Prop
  | .alloc d' addr _ _ => pageOf addr = i ∧ (d' = d ∨ KernelIdx s (tbIdx i))
  | .lazyAlloc d' addr _ _ _ => pageOf addr = i ∧ (d' = d ∨ KernelIdx s (tbIdx i))
  | .allocInterval d' start stop _ _ =>
    (start ≤ i ∧ i < stop) ∧ (d' = d ∨ KernelIdx s (tbIdx i))
  | .lazyAllocInterval d' start stop _ _ _ =>
    (start ≤ i ∧ i < stop) ∧ (d' = d ∨ KernelIdx s (tbIdx i))
  | _ => False

/-- The call makes a table, for which `kmalloc` opens pages of the heap. -/
def MakesTable (s : Kernel) : PageOp → Prop
  | .getPage d addr => lookup s d addr = none
  | .alloc d addr _ _ => lookup s d addr = none
  | .lazyAlloc d addr _ _ _ => lookup s d addr = none
  | .allocInterval d start stop _ _ => ∃ i, start ≤ i ∧ i < stop ∧ lookup s d i = none
  | .lazyAllocInterval d start stop _ _ _ => ∃ i, start ≤ i ∧ i < stop ∧ lookup s d i = none
  | .clone _ => True
  | _ => False

/-- The call allocates neither the page of `d` at `i` nor, if it is a page of the kernel,
memory of the heap. -/
structure Spares (d i : Word) (s : Kernel) (op : PageOp) : Prop where
  page : ¬ op.Opens s d i
  heap : KernelIdx s (tbIdx i) → ¬ op.MakesTable s

end PageOp

/-- A call of a function, or what the processor does with its entries on its own: it may
keep what it finds in the tables, and give up what it keeps. -/
inductive MmuStep (allowed : Kernel → PageOp → Prop) : Mmu → Mmu → Prop
  | call {s s' : Kernel} {tlb : Tlb} {op : PageOp} (step : PageStep op s s') (hop : allowed s op) :
      MmuStep allowed ⟨s, tlb⟩ ⟨s', fun i => if op.flushes s i = true then none else tlb i⟩
  | keep {s : Kernel} {tlb : Tlb} {addr : Word} {p : Slot}
      (hlook : lookup s s.currentPageDir addr = some p) (hpresent : (s.page p).present = true) :
      MmuStep allowed ⟨s, tlb⟩ ⟨s, fun i => if i = pageOf addr then some (s.page p) else tlb i⟩
  | drop {s : Kernel} {tlb : Tlb} {addr : Word} :
      MmuStep allowed ⟨s, tlb⟩ ⟨s, fun i => if i = pageOf addr then none else tlb i⟩

/-- Any number of steps. -/
abbrev MmuRuns (allowed : Kernel → PageOp → Prop) : Mmu → Mmu → Prop :=
  Relation.ReflTransGen (MmuStep allowed)

/-! ## Closed pages -/

/-- The page is not open to the fault handler. -/
def Closed (s : Kernel) (d addr : Word) : Prop :=
  ∀ p, lookup s d addr = some p → (s.page p).allocable = false

/-- A closed page has no frame. -/
theorem Running.not_present (h : Running g c F s) (hp : Editable g s p)
    (hclosed : (s.page p).allocable = false) : (s.page p).present = false := by
  have hshape := h.sound.shaped p hp
  rw [Bool.eq_false_iff]
  intro hpresent
  have hopen := hshape.2 (hshape.1.mp hpresent)
  exact absurd (hopen.symm.trans hclosed) (by decide)

/-- An access to a closed page ends in the error path of `page_fault`. -/
theorem Running.access_of_closed (h : Running g c F s) (haddr : OrdinaryPage s addr)
    (hclosed : Closed s s.currentPageDir addr) (write : Bool) (eip : Word) :
    ∃ errCode, access addr write eip s = (.error (.pageFault addr errCode), s) := by
  cases hlook : lookup s s.currentPageDir addr with
  | none =>
      exact access_of_refused ⟨_, by simp only [walk, hlook]; rfl⟩ fun _ => pageFault_of_none hlook
  | some p =>
      have hp := h.linked.editable h.linked.current hlook haddr.1 haddr.2
      have hnot := hclosed p hlook
      have hpresent := h.not_present hp hnot
      refine access_of_refused ⟨_, by simp only [walk, hlook, hpresent, if_true]; rfl⟩ fun _ =>
        pageFault_of_closed hlook fun hopen => ?_
      exact absurd (hopen.1.symm.trans hnot) (by decide)

theorem lookup_pageOf (s : Kernel) (d addr : Word) :
    lookup s d (pageOf addr) = lookup s d addr := by
  obtain ⟨hidx, hoffset⟩ := idx_eq_of_pageOf (pageOf_pageOf addr)
  rw [lookup, lookup, hidx, hoffset]

/-- All addresses of a page are ordinary or none is. -/
theorem ordinaryPage_pageOf (s : Kernel) (addr : Word) :
    OrdinaryPage s (pageOf addr) ↔ OrdinaryPage s addr := by
  have hid : IdentityPage s (pageOf addr) ↔ IdentityPage s addr := by
    rw [IdentityPage, IdentityPage, pageOf_pageOf, toNat_pageOf]
    omega
  rw [OrdinaryPage, OrdinaryPage, hid, ScratchPage, ScratchPage, pageOf_pageOf]

/-- Work on another entry. -/
theorem Closed.work (hclosed : Closed s d i) (h : Running g c F s) (hd : d ∈ s.dirs)
    (hi : OrdinaryPage s i) (hw : Work g c {q} s s') (hne : lookup s d i ≠ some q) :
    Closed s' d i := by
  intro p hp
  rw [hw.lookup_eq] at hp
  have hedit := h.linked.editable hd hp hi.1 hi.2
  have hpq : p ∉ ({q} : Set Slot) := by
    rintro rfl
    exact hne hp
  exact (hw.steps.kept hedit hpq).weaker.allocable.trans (hclosed p hp)

theorem KernelIdx.shared (h : Linked g s) {i : BitVec 10} : KernelIdx s i ↔ g.Shared i := by
  rw [KernelIdx, h.low, Layout.Shared]

/-- An entry belongs to one page, of one directory or of the kernel. -/
theorem Linked.page_of_lookup (h : Linked g s) (hd : d ∈ s.dirs) (hd' : d' ∈ s.dirs)
    (hi : lookup s d i = some p) (haddr : lookup s d' addr = some p) :
    pageOf addr = pageOf i ∧ (d' = d ∨ KernelIdx s (tbIdx i)) := by
  obtain ⟨-, hp, hne⟩ := h.lookup_mem hd hi
  obtain ⟨-, hp', hne'⟩ := h.lookup_mem hd' haddr
  have htable : (s.dir d).tables (tbIdx i) = (s.dir d').tables (tbIdx addr) :=
    congrArg Slot.table (hp.symm.trans hp')
  by_cases hshared : g.Shared (tbIdx i)
  · -- the table of the kernel is not one that a directory owns
    have hj : g.Shared (tbIdx addr) := by
      by_contra hj
      refine (h.owned.own d' hd' _ hj hne').2 ⟨tbIdx i, hshared, ?_⟩
      rw [← htable, h.shared d hd _ hshared]
    have hsame : lookup s d addr = lookup s d' addr := by
      rw [lookup, lookup, h.shared d hd _ hj, h.shared d' hd' _ hj]
    exact ⟨h.pageOf_eq_of_lookup hd (hsame.trans haddr) hi, .inr ((KernelIdx.shared h).mpr hshared)⟩
  · have hj : ¬ g.Shared (tbIdx addr) := by
      intro hj
      refine (h.owned.own d hd _ hshared hne).2 ⟨tbIdx addr, hj, ?_⟩
      rw [htable, h.shared d' hd' _ hj]
    obtain ⟨rfl, -⟩ := h.owned.unique d hd d' hd' _ _ hshared hj hne htable
    exact ⟨h.pageOf_eq_of_lookup hd haddr hi, .inl rfl⟩

/-- `get_page` opens at most pages of the kernel. -/
theorem Closed.afterGetPage (hclosed : Closed s d i) (h : Running g c F s) (hd : d ∈ s.dirs)
    (hi : OrdinaryPage s i) (hd' : d' ∈ s.dirs) (addr : Word)
    (hheap : KernelIdx s (tbIdx i) → lookup s d' addr ≠ none) :
    Ends (getPageWith kmalloc d' addr) s
      (fun p s' => (∃ F', Acted g c d' F F' s s') ∧ lookup s' d' addr = some p ∧ Closed s' d i ∧
        (lookup s d' addr ≠ none → s' = s)) (fun _ _ => True) := by
  cases hlook : lookup s d' addr with
  | some p =>
      exact .of_ok (getPageWith_of_lookup hlook) ⟨⟨F, .refl h⟩, hlook, hclosed, fun _ => rfl⟩
  | none =>
      have hshared : ¬ g.Shared (tbIdx i) := fun hi' =>
        hheap ((KernelIdx.shared h.linked).mpr hi') hlook
      refine (getPageWith_of_mem h hd' addr).mono ?_ (fun _ _ _ => trivial)
      rintro p s' (⟨-, hsome⟩ | ⟨F', t, hm, rfl⟩)
      · rw [hlook] at hsome
        cases hsome
      have ht : (s'.dir d').tables (tbIdx addr) = t := by
        rw [hm.dir, Kernel.dir_setDir_self]
        exact if_pos rfl
      refine ⟨⟨F', hm.acted h⟩, ?_, ?_, fun hne => absurd rfl hne⟩
      · rw [lookup, ht, if_neg hm.ne_null]
      · intro p hp
        by_cases hnew : d = d' ∧ tbIdx i = tbIdx addr
        · obtain ⟨rfl, hidx⟩ := hnew
          rw [lookup, hidx, ht, if_neg hm.ne_null] at hp
          obtain rfl := Option.some.inj hp
          exact congrArg TableEntry.allocable (hm.zero (tbOffset i))
        · have hsame : (s'.dir d).tables (tbIdx i) = (s.dir d).tables (tbIdx i) := by
            rw [hm.dir]
            by_cases hdd : d = d'
            · rw [hdd, Kernel.dir_setDir_self]
              exact if_neg fun hidx => hnew ⟨hdd, hidx⟩
            · rw [Kernel.dir_setDir_of_ne _ _ hdd]
          have hp' : lookup s d i = some p := by
            rw [lookup, ← hsame]
            exact hp
          obtain ⟨hmem, hpe, hne⟩ := h.linked.lookup_mem hd hp'
          have hold : p ∉ g.fresh s := by
            rintro (hk | hfresh)
            · rw [hpe] at hk
              exact (h.linked.owned.own d hd _ hshared hne).2 hk
            · exact hfresh hmem
          have hedit := h.linked.editable hd hp' hi.1 hi.2
          exact (hm.grown.steps.kept hedit hold).weaker.allocable.trans (hclosed p hp')

section Acts

variable {act : Slot → Prog Unit} {W : Prop}

/-- A function on another page. -/
theorem Closed.onPage (hclosed : Closed s d i) (hact : Acts g False W act)
    (h : Running g False F s) (hd : d ∈ s.dirs) (hi : OrdinaryPage s i) (hd' : d' ∈ s.dirs)
    (haddr : OrdinaryPage s addr)
    (hother : ¬ (pageOf addr = pageOf i ∧ (d' = d ∨ KernelIdx s (tbIdx i))))
    (hheap : KernelIdx s (tbIdx i) → lookup s d' addr ≠ none) :
    Ends (do let p ← getPageWith kmalloc d' addr
             act p) s
      (fun _ s' => (∃ F', Acted g False d' F F' s s') ∧ Closed s' d i ∧
        (lookup s d' addr ≠ none → ∀ j, lookup s' d' j = lookup s d' j)) (fun _ _ => True) := by
  refine Ends.bind ((hclosed.afterGetPage h hd hi hd' addr hheap).mono (fun _ _ h => h)
    (fun _ _ _ => trivial)) ?_
  rintro p s₁ ⟨⟨F', hacted⟩, hlook, hclosed₁, hsame⟩
  have hl₁ := hacted.running.linked
  have hd₁' := hacted.dirs hd'
  have haddr₁ := hacted.ordinary haddr
  have hp := hl₁.editable hd₁' hlook haddr₁.1 haddr₁.2
  refine (hact s₁ p hacted.running.sound hp False.elim).mono ?_ (fun _ _ h => h)
  rintro - s' ⟨hw, -⟩
  refine ⟨⟨F', hacted.trans (hacted.running.acted hd₁' hlook hw)⟩, ?_, fun hne j => ?_⟩
  · refine hclosed₁.work hacted.running (hacted.dirs hd) (hacted.ordinary hi) hw fun hq => ?_
    obtain ⟨hpage, hdir⟩ := hl₁.page_of_lookup (hacted.dirs hd) hd₁' hq hlook
    rw [KernelIdx, hacted.env.low] at hdir
    exact hother ⟨hpage, hdir⟩
  · rw [hw.lookup_eq, hsame hne]

/-- The same for an interval without the page. -/
theorem Closed.onInterval (hclosed : Closed s d i) (hact : Acts g False W act)
    (h : Running g False F s) (hd : d ∈ s.dirs) (hi : OrdinaryPage s i) (hpage : pageOf i = i)
    (hd' : d' ∈ s.dirs) (hpages : ∀ j, start ≤ j → j < stop → OrdinaryPage s j)
    (hother : ¬ ((start ≤ i ∧ i < stop) ∧ (d' = d ∨ KernelIdx s (tbIdx i))))
    (hheap : KernelIdx s (tbIdx i) → ∀ j, start ≤ j → j < stop → lookup s d' j ≠ none) :
    Ends (interval (fun j => do let p ← getPageWith kmalloc d' j
                                act p) start stop) s
      (fun _ s' => Closed s' d i) (fun _ _ => True) := by
  by_cases halign : pageOf start = start ∧ pageOf stop = stop
  swap
  · rw [interval, if_neg halign]
    exact trivial
  let I : Word → Kernel → Prop := fun _ s' => (∃ F', Acted g False d' F F' s s') ∧
    Closed s' d i ∧ (KernelIdx s (tbIdx i) → ∀ j, lookup s' d' j = lookup s d' j)
  have hI : I start s := ⟨⟨F, .refl h⟩, hclosed, fun _ _ => rfl⟩
  refine (interval_ends I hI (fun j s₁ hj hle hlt hI => ?_) (fun _ => trivial)).mono ?_
    (fun _ _ h => h)
  · obtain ⟨⟨F₁, hacted⟩, hclosed₁, hsame⟩ := hI
    have hidx : KernelIdx s₁ (tbIdx i) ↔ KernelIdx s (tbIdx i) := by
      rw [KernelIdx, hacted.env.low, KernelIdx]
    refine (hclosed₁.onPage hact hacted.running (hacted.dirs hd) (hacted.ordinary hi)
      (hacted.dirs hd') (hacted.ordinary (hpages j hle hlt)) ?_ ?_).mono ?_ (fun _ _ h => h)
    · rintro ⟨hji, hdir⟩
      rw [hj, hpage] at hji
      rw [hidx] at hdir
      rw [hji] at hle hlt
      exact hother ⟨⟨hle, hlt⟩, hdir⟩
    · intro hk
      rw [hsame (hidx.mp hk)]
      exact hheap (hidx.mp hk) j hle hlt
    · rintro - s₂ ⟨⟨F₂, hacted₂⟩, hclosed₂, hsame₂⟩
      refine ⟨⟨F₂, hacted.trans hacted₂⟩, hclosed₂, fun hk k => ?_⟩
      have hne : lookup s₁ d' j ≠ none := by
        rw [hsame hk]
        exact hheap hk j hle hlt
      rw [hsame₂ hne, hsame hk]
  · rintro - s' ⟨-, -, -, hclosed', -⟩
    exact hclosed'

end Acts

/-- `free` opens nothing. -/
theorem Closed.afterFree (hclosed : Closed s d i) (h : Running g c F s) (hd : d ∈ s.dirs)
    (hi : OrdinaryPage s i) (hp : Editable g s p) : Closed (free p s).2 d i := by
  have hw : Work g c {p} s (free p s).2 := free_ends rfl hp
  by_cases hq : lookup s d i = some p
  · intro q hq'
    rw [hw.lookup_eq, hq] at hq'
    obtain rfl := Option.some.inj hq'
    have hnot := hclosed p hq
    by_cases hzero : (s.page p).addr = 0
    · rw [free_of_zero hzero]
      exact hnot
    · exact absurd ((h.sound.shaped p hp).2 hzero) (by rw [hnot]; decide)
  · exact hclosed.work h hd hi hw hq

theorem Closed.afterFreeInterval (hclosed : Closed s d i) (h : Running g c F s) (hd : d ∈ s.dirs)
    (hi : OrdinaryPage s i) (hd' : d' ∈ s.dirs)
    (hpages : ∀ j, start ≤ j → j < stop → OrdinaryPage s j) :
    Ends (freeInterval d' start stop) s (fun _ s' => Closed s' d i) (fun _ _ => True) := by
  refine (interval_ends (fun _ s' => Acted g c d' F F s s' ∧ Closed s' d i) ⟨.refl h, hclosed⟩
    (fun j s₁ _ hle hlt hI => ?_) (fun _ => trivial)).mono ?_ (fun _ _ h => h)
  · obtain ⟨hacted, hclosed₁⟩ := hI
    rw [Ends.bind_read]
    split
    · exact ⟨hacted, hclosed₁⟩
    · next p hlook =>
        rw [Ends.bind_read]
        split
        · have hj := hacted.ordinary (hpages j hle hlt)
          have hp := hacted.running.linked.editable (hacted.dirs hd') hlook hj.1 hj.2
          have hfreed : Ends (free p) s₁ _ _ :=
            free_acted hacted.running (hacted.dirs hd') hj hlook
          refine .of_ok (rfl : free p s₁ = (.ok (), (free p s₁).2))
            ⟨hacted.trans (hfreed.ok rfl), ?_⟩
          exact hclosed₁.afterFree hacted.running (hacted.dirs hd) (hacted.ordinary hi) hp
        · exact ⟨hacted, hclosed₁⟩
  · rintro - s' ⟨-, -, -, hclosed'⟩
    exact hclosed'

/-- A call that spares a closed page leaves it closed. -/
theorem PageStep.closed (hstep : PageStep op s s') (h : Running g False F s) (hd : d ∈ s.dirs)
    (hi : OrdinaryPage s i) (hpage : pageOf i = i) (hspares : op.Spares d i s)
    (hclosed : Closed s d i) : Closed s' d i := by
  obtain ⟨hnot, hheap⟩ := hspares
  obtain ⟨hlegal, hrun⟩ := hstep
  cases op with
  | getPage d' addr =>
      obtain ⟨p, t, hp, hpure⟩ := bind_eq_ok hrun
      cases hpure
      exact ((hclosed.afterGetPage h hd hi hlegal addr hheap).ok hp).2.2.1
  | alloc d' addr user writable =>
      refine ((hclosed.onPage (alloc_acts user writable) h hd hi hlegal.1 hlegal.2.1 ?_ hheap).ok
        hrun).2.1
      rw [hpage]
      exact hnot
  | lazyAlloc d' addr user writable fillZero =>
      refine ((hclosed.onPage (lazyAlloc_acts user writable fillZero) h hd hi hlegal.1 hlegal.2.1
        ?_ hheap).ok hrun).2.1
      rw [hpage]
      exact hnot
  | free d' addr =>
      simp only [PageOp.exec, bind_apply, read_apply] at hrun
      cases hlook : lookup s d' addr with
      | none =>
          rw [hlook] at hrun
          cases hrun
          exact hclosed
      | some p =>
          rw [hlook] at hrun
          have haddr := hlegal.2.1
          cases hrun
          exact hclosed.afterFree h hd hi (h.linked.editable hlegal.1 hlook haddr.1 haddr.2)
  | allocInterval d' start stop user writable =>
      exact (hclosed.onInterval (alloc_acts user writable) h hd hi hpage hlegal.1
        hlegal.2.ordinary hnot fun hk j hle hlt hnone => hheap hk ⟨j, hle, hlt, hnone⟩).ok hrun
  | lazyAllocInterval d' start stop user writable fillZero =>
      exact (hclosed.onInterval (lazyAlloc_acts user writable fillZero) h hd hi hpage hlegal.1
        hlegal.2.ordinary hnot fun hk j hle hlt hnone => hheap hk ⟨j, hle, hlt, hnone⟩).ok hrun
  | freeInterval d' start stop =>
      exact (hclosed.afterFreeInterval h hd hi hlegal.1 hlegal.2.ordinary).ok hrun
  | clone src =>
      obtain ⟨dest, t, hclone, hpure⟩ := bind_eq_ok hrun
      cases hpure
      obtain ⟨F', hc⟩ := (cloneDirectory_ends h hlegal).ok hclone
      have hshared : ¬ g.Shared (tbIdx i) := fun hi' =>
        hheap ((KernelIdx.shared h.linked).mpr hi') trivial
      intro p hp
      rw [lookup, hc.others d fun e => hc.fresh (e ▸ hd), ← lookup] at hp
      obtain ⟨hmem, hpe, hne⟩ := h.linked.lookup_mem hd hp
      have hold : p ∉ g.fresh s := by
        rintro (hk | hfresh)
        · rw [hpe] at hk
          exact (h.linked.owned.own d hd _ hshared hne).2 hk
        · exact hfresh hmem
      have hedit := h.linked.editable hd hp hi.1 hi.2
      exact (hc.grown.steps.kept hedit hold).weaker.allocable.trans (hclosed p hp)
  | access addr write eip =>
      simp only [PageOp.exec, bind_apply, read_apply] at hrun
      cases hwalk : walk s addr write (decide (s.kernelCodeEnd ≤ eip)) with
      | ok f =>
          rw [hwalk] at hrun
          cases hrun
          exact hclosed
      | error errCode =>
          rw [hwalk] at hrun
          obtain ⟨p, hlook, hp, hres⟩ :=
            resolved_of_fault h.sound h.linked h.scratched hwalk hrun
          refine hclosed.work h hd hi (hres.work h.sound.frames rfl hp) fun hq => ?_
          have hfault : pageFault addr errCode eip s = (.error (.pageFault addr errCode), s) :=
            pageFault_of_closed hlook fun hopen =>
              absurd (hopen.1.symm.trans (hclosed p hq)) (by decide)
          cases hrun.symm.trans hfault
  | enable d' =>
      cases hrun
      exact hclosed

/-! ## Pages out of reach -/

/-- The page is closed, and the processor keeps no entry of it. -/
structure OutOfReach (d i : Word) (m : Mmu) : Prop where
  closed : Closed m.kernel d i
  flushed : m.kernel.currentPageDir = d ∨ KernelIdx m.kernel (tbIdx i) → m.tlb i = none

variable {m m' : Mmu}

/-- The current directory has the page of `d`. -/
theorem Closed.current (hclosed : Closed s d i) (h : Linked g s) (hd : d ∈ s.dirs)
    (hdir : s.currentPageDir = d ∨ KernelIdx s (tbIdx i)) : Closed s s.currentPageDir i := by
  obtain rfl | hk := hdir
  · exact hclosed
  · have hshared := (KernelIdx.shared h).mp hk
    intro p hp
    apply hclosed p
    rw [lookup, h.shared d hd _ hshared]
    rw [lookup, h.shared _ h.current _ hshared] at hp
    exact hp

/-- One step. -/
theorem MmuStep.outOfReach (hstep : MmuStep (PageOp.Spares d i) m m')
    (h : Running g False F m.kernel) (hd : d ∈ m.kernel.dirs) (hi : OrdinaryPage m.kernel i)
    (hpage : pageOf i = i) (hm : OutOfReach d i m) :
    OutOfReach d i m' ∧ (∃ F', Running g False F' m'.kernel) ∧ d ∈ m'.kernel.dirs ∧
      OrdinaryPage m'.kernel i := by
  obtain ⟨hclosed, hflushed⟩ := hm
  cases hstep with
  | @call s s' tlb op step hspares =>
      have hclosed' := step.closed h hd hi hpage hspares hclosed
      obtain ⟨F', hacted⟩ | ⟨d', hd', rfl, rfl⟩ := step.acted h False.elim
      · refine ⟨⟨hclosed', fun hdir => ?_⟩, ⟨F', hacted.running⟩, hacted.dirs hd,
          hacted.ordinary hi⟩
        rw [hacted.env.current, KernelIdx, hacted.env.low] at hdir
        exact ite_eq_left_iff.mpr fun _ => hflushed hdir
      · exact ⟨⟨hclosed', fun _ => rfl⟩, ⟨F, h.enable hd'⟩, hd, hi⟩
  | @keep s tlb addr p hlook hpresent =>
      refine ⟨⟨hclosed, fun hdir => ?_⟩, ⟨F, h⟩, hd, hi⟩
      change (if i = pageOf addr then some (s.page p) else tlb i) = none
      split
      · next he =>
          rw [← lookup_pageOf, ← he] at hlook
          have hp := h.linked.editable h.linked.current hlook hi.1 hi.2
          have hnot := h.not_present hp (hclosed.current h.linked hd hdir p hlook)
          exact absurd (hpresent.symm.trans hnot) (by decide)
      · exact hflushed hdir
  | @drop s tlb addr =>
      refine ⟨⟨hclosed, fun hdir => ?_⟩, ⟨F, h⟩, hd, hi⟩
      exact ite_eq_left_iff.mpr fun _ => hflushed hdir

/-- A page that is out of reach stays so, as long as no call opens it. -/
theorem OutOfReach.runs (hm : OutOfReach d i m) (h : Running g False F m.kernel)
    (hd : d ∈ m.kernel.dirs) (hi : OrdinaryPage m.kernel i) (hpage : pageOf i = i)
    (hruns : MmuRuns (PageOp.Spares d i) m m') :
    OutOfReach d i m' ∧ (∃ F', Running g False F' m'.kernel) ∧ d ∈ m'.kernel.dirs ∧
      OrdinaryPage m'.kernel i := by
  induction hruns with
  | refl => exact ⟨hm, ⟨F, h⟩, hd, hi⟩
  | tail _ hstep ih =>
      obtain ⟨hm₁, ⟨F₁, h₁⟩, hd₁, hi₁⟩ := ih
      exact hstep.outOfReach h₁ hd₁ hi₁ hpage hm₁

/-- Accesses to it reach the error path of `page_fault`. -/
theorem OutOfReach.refused (hm : OutOfReach d i m) (h : Running g False F m.kernel)
    (hd : d ∈ m.kernel.dirs) (hi : OrdinaryPage m.kernel i)
    (hdir : m.kernel.currentPageDir = d ∨ KernelIdx m.kernel (tbIdx i)) (haddr : pageOf addr = i)
    (write : Bool) (eip : Word) :
    ∃ errCode, m.access addr write eip = (.error (.pageFault addr errCode), m.kernel) := by
  rw [← haddr, ordinaryPage_pageOf] at hi
  have hclosed : Closed m.kernel m.kernel.currentPageDir addr := by
    intro p hp
    rw [← lookup_pageOf, haddr] at hp
    exact hm.closed.current h.linked hd hdir p hp
  obtain ⟨errCode, hrun⟩ := h.access_of_closed hi hclosed write eip
  refine ⟨errCode, ?_⟩
  rw [Mmu.access, haddr, hm.flushed hdir]
  exact hrun

end Jkos.Page
