import Jkos.Page.System

/-!
# Operations on page tables

The functions that `page.h` offers on pages and directories, in any order. The accounting
of frames holds whatever they are applied to; that no shared frame becomes writable needs
that a page with a shared frame is not opened for writing or cleared.
-/

namespace Jkos.Page

open Exec Kheap

variable {g : Layout} {c : Prop} {K : Set Slot} {s s' s'' s₀ s₁ : Kernel} {p q : Slot}
  {F F' F'' : Multiset Block} {d d' addr start stop : Word} {user writable fillZero : Bool}

/-- A page outside the identity map and the scratch pages. -/
def OrdinaryPage (s : Kernel) (addr : Word) : Prop := ¬ IdentityPage s addr ∧ ¬ ScratchPage s addr

/-- The page is memory of a table or a directory. -/
def HoldsTable (s : Kernel) (addr : Word) : Prop :=
  pageOf addr ∈ s.tables ∨ pageOf addr ∈ s.dirs ∨ pageOf addr - 0x1000 ∈ s.dirs ∨
    pageOf addr - 0x2000 ∈ s.dirs

/-- A page that holds nothing of the page tables themselves. The code finds an entry through
the page of its table, so that the table would be lost with it. -/
def PlainPage (s : Kernel) (addr : Word) : Prop := OrdinaryPage s addr ∧ ¬ HoldsTable s addr

/-- An interval of such pages. New tables come from the heap, so it does not reach from the
heap to where a table may be missing. -/
def PlainInterval (s : Kernel) (start stop : Word) : Prop :=
  (∀ i, start ≤ i → i < stop → PlainPage s i) ∧
    ((∀ i, start ≤ i → i < stop → HeapAddr i) ∨ ∀ i, start ≤ i → i < stop → ¬ HeapAddr i)

theorem PlainInterval.ordinary (h : PlainInterval s start stop) :
    ∀ i, start ≤ i → i < stop → OrdinaryPage s i :=
  fun i hle hlt => (h.1 i hle hlt).1

/-- A call of one of the functions. -/
inductive PageOp
  | getPage (d addr : Word)
  | alloc (d addr : Word) (user writable : Bool)
  | lazyAlloc (d addr : Word) (user writable fillZero : Bool)
  | free (d addr : Word)
  | allocInterval (d start stop : Word) (user writable : Bool)
  | lazyAllocInterval (d start stop : Word) (user writable fillZero : Bool)
  | freeInterval (d start stop : Word)
  | clone (src : Word)
  /-- An access that the processor checks, and the handler if the check fails. -/
  | access (addr : Word) (write : Bool) (eip : Word)
  | enable (d : Word)

namespace PageOp

/-- What the call does. -/
def exec : PageOp → Prog Unit
  | .getPage d addr => do let _ ← getPageWith kmalloc d addr
  | .alloc d addr user writable => do
      let p ← getPageWith kmalloc d addr
      Page.alloc p user writable
  | .lazyAlloc d addr user writable fillZero => do
      let p ← getPageWith kmalloc d addr
      Page.lazyAlloc p user writable fillZero
  | .free d addr => do
      match ← read (lookup · d addr) with
      | none => pure ()
      | some p => Page.free p
  | .allocInterval d start stop user writable => Page.allocInterval d start stop user writable
  | .lazyAllocInterval d start stop user writable fillZero =>
      Page.lazyAllocInterval d start stop user writable fillZero
  | .freeInterval d start stop => Page.freeInterval d start stop
  | .clone src => do let _ ← cloneDirectory src
  | .access addr write eip => do
      match ← read (fun s => walk s addr write (decide (s.kernelCodeEnd ≤ eip))) with
      | .ok _ => pure ()
      | .error errCode => pageFault addr errCode eip
  | .enable d => Page.enable d

/-- The directories exist, and the pages are none that the kernel keeps for itself. -/
def Legal (s : Kernel) : PageOp → Prop
  | .getPage d _ => d ∈ s.dirs
  | .alloc d addr _ _ => d ∈ s.dirs ∧ PlainPage s addr
  | .lazyAlloc d addr _ _ _ => d ∈ s.dirs ∧ PlainPage s addr
  | .free d addr => d ∈ s.dirs ∧ PlainPage s addr
  | .allocInterval d start stop _ _ => d ∈ s.dirs ∧ PlainInterval s start stop
  | .lazyAllocInterval d start stop _ _ _ => d ∈ s.dirs ∧ PlainInterval s start stop
  | .freeInterval d start stop => d ∈ s.dirs ∧ PlainInterval s start stop
  | .clone src => src ∈ s.dirs
  | .access _ _ _ => True
  | .enable d => d ∈ s.dirs

end PageOp

/-- A call that returns. -/
structure PageStep (op : PageOp) (s s' : Kernel) : Prop where
  legal : op.Legal s
  run : op.exec s = (.ok (), s')

/-! ## What a call leaves alone -/

variable (g) in
/-- The entries in the tables of the other directories. -/
def foreign (s : Kernel) (d : Word) : Set Slot :=
  {q | ∃ d' ∈ s.dirs, d' ≠ d ∧ ∃ i, ¬ g.Shared i ∧ (s.dir d').tables i = q.table ∧ q.table ≠ null}

theorem foreign_mem (h : Linked g s) (hq : q ∈ foreign g s d) :
    q.table ∈ s.tables ∧ q.table ∉ g.kernel := by
  obtain ⟨d', hd', -, i, hi, he, hne⟩ := hq
  rw [← he] at hne ⊢
  exact h.owned.own d' hd' i hi hne

theorem foreign_ne (h : Linked g s) (hd : d ∈ s.dirs) (hq : q ∈ foreign g s d)
    (hlook : lookup s d addr = some p) : q ≠ p := by
  rintro rfl
  obtain ⟨-, hp, hne⟩ := h.lookup_mem hd hlook
  obtain ⟨d', hd', hdd, i, hi, he, -⟩ := id hq
  have htable : q.table = (s.dir d).tables (tbIdx addr) := by rw [hp]
  by_cases hj : g.Shared (tbIdx addr)
  · refine (foreign_mem h hq).2 ⟨tbIdx addr, hj, ?_⟩
    rw [htable, h.shared d hd _ hj]
  · rw [htable] at he
    exact hdd (h.owned.unique d' hd' d hd i (tbIdx addr) hi hj (he ▸ hne) he).1

variable (g c) in
/-- A function has worked on the directory `d`. -/
structure Acted (d : Word) (F F' : Multiset Block) (s s' : Kernel) : Prop where
  running : Running g c F' s'
  env : SameEnv s s'
  dirs : s.dirs ⊆ s'.dirs
  others : ∀ d' ∈ s.dirs, d' ≠ d → s'.dir d' = s.dir d'
  steps : Steps g c (foreign g s d)ᶜ s s'

namespace Acted

theorem refl (h : Running g c F s) : Acted g c d F F s s :=
  ⟨h, .refl, fun _ h => h, fun _ _ _ => rfl, .refl⟩

theorem foreign_subset (h : Acted g c d F F' s s') : foreign g s d ⊆ foreign g s' d := by
  rintro q ⟨d', hd', hdd, i, hi, he, hne⟩
  refine ⟨d', h.dirs hd', hdd, i, hi, ?_, hne⟩
  rw [h.others d' hd' hdd]
  exact he

theorem trans (h : Acted g c d F F' s s') (h' : Acted g c d F' F'' s' s'') :
    Acted g c d F F'' s s'' := by
  refine ⟨h'.running, h.env.trans h'.env, fun _ hd => h'.dirs (h.dirs hd), fun d' hd' hdd => ?_, ?_⟩
  · rw [h'.others d' (h.dirs hd') hdd, h.others d' hd' hdd]
  · exact h.steps.trans (h'.steps.mono (Set.compl_subset_compl.mpr h.foreign_subset))

theorem ordinary (h : Acted g c d F F' s s') (hp : OrdinaryPage s addr) : OrdinaryPage s' addr := by
  refine ⟨fun hid => hp.1 ?_, fun hscr => hp.2 ((h.env.scratchPage_iff addr).mp hscr)⟩
  rw [IdentityPage, h.env.staticEnd] at hid
  exact hid

end Acted

theorem Running.work (h : Running g c F s) (hw : Work g c K s s') : Running g c F s' :=
  ⟨h.toValid.work hw, hw.steps.scratched h.scratched⟩

/-- Work on an entry of the directory. -/
theorem Running.acted (h : Running g c F s) (hd : d ∈ s.dirs) (hlook : lookup s d addr = some p)
    (hw : Work g c {p} s s') : Acted g c d F F s s' := by
  refine ⟨h.work hw, hw.env, ?_, fun d' _ _ => by rw [hw.dir_eq], hw.steps.mono ?_⟩
  · rw [hw.dirs_eq]
    exact fun _ h => h
  · rintro _ rfl hq
    exact foreign_ne h.linked hd hq hlook rfl

theorem Made.acted {t : Word} {i : BitVec 10} (hm : Made g c F F' d i t s s')
    (h : Running g c F s) : Acted g c d F F' s s' := by
  refine ⟨hm.grown.running h, hm.grown.env, ?_, fun d' _ hdd => ?_, hm.grown.steps.mono ?_⟩
  · rw [hm.dirs]
    exact fun _ h => h
  · rw [hm.dir, Kernel.dir_setDir_of_ne _ _ hdd]
  · rintro q (hk | hnew) hq
    · exact (foreign_mem h.linked hq).2 hk
    · exact hnew (foreign_mem h.linked hq).1

/-! ## Shared frames -/

/-- The page has no frame, or a frame that no other page has. -/
def Unshared (s : Kernel) (p : Slot) : Prop :=
  (s.page p).addr = 0 ∨ s.frameRefCnt (s.page p).addr = 1

theorem Unshared.sole (h : Unshared s p) (hheld : (s.page p).addr ≠ 0) : Sole g s p :=
  .inr (h.resolve_left hheld)

/-- A page that keeps its frame while no other page gets it. -/
theorem Unshared.of_holders (h : Unshared s p) (hs : FrameInv g s) (hs' : FrameInv g s')
    (hp : Editable g s p) (hp' : Editable g s' p) (haddr : (s'.page p).addr = (s.page p).addr)
    (hsub : (s.page p).addr ≠ 0 → holders s' (s.page p).addr ⊆ holders s (s.page p).addr) :
    Unshared s' p := by
  rw [Unshared, haddr]
  by_cases hzero : (s.page p).addr = 0
  · exact .inl hzero
  · refine .inr ?_
    have hone := h.resolve_left hzero
    obtain ⟨href, -⟩ := hs.ref_eq hp.counted hp.ordinary rfl hzero
    obtain ⟨href', hpos⟩ := hs'.ref_eq hp'.counted hp'.ordinary haddr hzero
    rw [hone] at href
    obtain ⟨r, hr⟩ := Set.ncard_eq_one.mp href.symm
    have hsub' := hsub hzero
    rw [hr] at hsub'
    have hle := Set.ncard_le_ncard hsub' (Set.finite_singleton r)
    rw [Set.ncard_singleton, ← href'] at hle
    rw [← href'] at hpos
    apply BitVec.eq_of_toNat_eq
    change _ = 1
    omega

/-- Work on another page that gives it at most a free frame. -/
theorem Unshared.work (h : Unshared s p) (hs : Sound g c s) (hw : Work g c {q} s s')
    (hp : Editable g s p) (hne : p ≠ q)
    (haddr : (s'.page q).addr = (s.page q).addr ∨ (s'.page q).addr ∈ s.frames) :
    Unshared s' p := by
  have hedit := hw.steps.editable hp
  refine h.of_holders hs.frames (hw.steps.sound hs).frames hp hedit
    (hw.steps.kept hp hne).addr fun hheld r hr => ?_
  obtain ⟨hcount, hr⟩ := hr
  have hcount' : Counted s r := by
    rw [Counted, hw.tables_eq, hw.env.empty0, hw.env.empty1] at hcount
    exact hcount
  refine ⟨hcount', ?_⟩
  have hfree : (s.page p).addr ∉ s.frames := (hp.held hs.frames hheld).2
  rcases eq_or_ne r q with rfl | hrq
  · obtain hsame | hmem := haddr
    · rw [← hsame, hr]
    · rw [hr] at hmem
      exact absurd hmem hfree
  · by_cases hid : r ∈ g.identity
    · have hunmanaged := ((hw.steps.sound hs).frames.identity r hid).2.1
      rw [hr] at hunmanaged
      exact absurd (hp.held hs.frames hheld).1 hunmanaged
    · rw [← (hw.steps.kept ⟨hcount', hid⟩ hrq).addr, hr]

/-- Pages of the kernel are never shared, and a new table has no frames. -/
theorem Unshared.made {t : Word} {i : BitVec 10} (h : Unshared s p) (hc : c)
    (hm : Made g c F F' d i t s s') (hs : Running g c F s) (hp : Editable g s p) :
    Unshared s' p := by
  have hsteps := hm.grown.steps
  have hsound := hm.grown.valid.sound
  have hedit := hsteps.editable hp
  by_cases hkernel : ∃ q, Editable g s' q ∧ q.table ∈ g.kernel ∧
      (s'.page q).addr = (s'.page p).addr
  · obtain ⟨q, hq, hk, he⟩ := hkernel
    by_cases hzero : (s'.page p).addr = 0
    · exact .inl hzero
    · rw [← he] at hzero
      refine .inr ?_
      rw [← he]
      exact hsound.exclusive hc q hq hzero (.inr hk)
  · have hold : ∀ q, Editable g s q → q.table ∉ g.kernel → (s'.page q).addr = (s.page q).addr := by
      intro q hq hk
      refine (hsteps.kept hq ?_).addr
      rintro (h | h)
      · exact hk h
      · exact h hq.counted.1
    have hpk : p.table ∉ g.kernel := fun hk => hkernel ⟨p, hedit, hk, rfl⟩
    have haddr := hold p hp hpk
    refine h.of_holders hs.sound.frames hsound.frames hp hedit haddr fun hheld q hq => ?_
    obtain ⟨⟨hmem, h0, h1⟩, hq⟩ := hq
    have hid : q ∉ g.identity := by
      intro hid
      have hunmanaged := (hsound.frames.identity q hid).2.1
      rw [hq] at hunmanaged
      exact hunmanaged (hp.held hs.sound.frames hheld).1
    have hqk : q.table ∉ g.kernel := fun hk =>
      hkernel ⟨q, ⟨⟨hmem, h0, h1⟩, hid⟩, hk, by rw [hq, haddr]⟩
    rw [hm.tables, List.mem_cons] at hmem
    obtain rfl | hmem := hmem
    · have hzero : (s'.page q).addr = 0 :=
        congrArg TableEntry.addr (hm.zero q.idx : s'.page q = TableEntry.zero)
      exact absurd (hq.symm.trans hzero) hheld
    · rw [hm.grown.env.empty0] at h0
      rw [hm.grown.env.empty1] at h1
      have hq' : Editable g s q := ⟨⟨hmem, h0, h1⟩, hid⟩
      exact ⟨hq'.counted, by rw [← hold q hq' hqk, hq]⟩

/-- The page of an address in a directory is not shared. -/
def PageUnshared (s : Kernel) (d addr : Word) : Prop := ∀ p, lookup s d addr = some p → Unshared s p

/-- Copy-on-write is respected: no page with a shared frame is opened for writing or
cleared. -/
def PageOp.Respects (s : Kernel) : PageOp → Prop
  | .alloc d addr _ writable => writable = true → PageUnshared s d addr
  | .lazyAlloc d addr _ writable fillZero =>
      writable = true ∨ fillZero = true → PageUnshared s d addr
  | .allocInterval d start stop _ writable =>
      writable = true → ∀ i, start ≤ i → i < stop → PageUnshared s d i
  | .lazyAllocInterval d start stop _ writable fillZero =>
      writable = true ∨ fillZero = true → ∀ i, start ≤ i → i < stop → PageUnshared s d i
  | _ => True

/-- `get_page` in a directory in existence. -/
theorem getPageWith_acted (h : Running g c F s) (hd : d ∈ s.dirs) (addr : Word) :
    Ends (getPageWith kmalloc d addr) s
      (fun p s' => ∃ F', Acted g c d F F' s s' ∧ lookup s' d addr = some p ∧
        (c → ∀ j, OrdinaryPage s j → PageUnshared s d j → PageUnshared s' d j))
      (fun e _ => e.Exhausted) := by
  refine (getPageWith_of_mem h hd addr).mono ?_ (fun _ _ h => h)
  rintro p s' (⟨rfl, hlook⟩ | ⟨F', t, hm, rfl⟩)
  · exact ⟨F, .refl h, hlook, fun _ _ _ h => h⟩
  have ht : (s'.dir d).tables (tbIdx addr) = t := by
    rw [hm.dir, Kernel.dir_setDir_self]
    exact if_pos rfl
  refine ⟨F', hm.acted h, ?_, fun hc j hj hun q hq => ?_⟩
  · rw [lookup, ht, if_neg hm.ne_null]
  · by_cases hidx : tbIdx j = tbIdx addr
    · rw [lookup, hidx, ht, if_neg hm.ne_null] at hq
      obtain rfl := Option.some.inj hq
      exact .inl (congrArg TableEntry.addr (hm.zero (tbOffset j)))
    · have hsame : (s'.dir d).tables (tbIdx j) = (s.dir d).tables (tbIdx j) := by
        rw [hm.dir, Kernel.dir_setDir_self]
        exact if_neg hidx
      have hq' : lookup s d j = some q := by
        rw [lookup, ← hsame]
        exact hq
      exact (hun q hq').made hc hm h (h.linked.editable hd hq' hj.1 hj.2)

/-! ## Functions on the entry of a page -/

/-- What `alloc` and `lazy_alloc` do to an entry: nothing else changes, and the entry keeps
its frame or gets a free one. Under `W` the entry must not be shared. -/
def Acts (g : Layout) (c W : Prop) (act : Slot → Prog Unit) : Prop :=
  ∀ s p, Sound g c s → Editable g s p → (c → W → Unshared s p) →
    Ends (act p) s (fun _ s' => Work g c {p} s s' ∧
      ((s'.page p).addr = (s.page p).addr ∨ (s'.page p).addr ∈ s.frames)) (fun _ _ => True)

theorem alloc_acts (user writable : Bool) :
    Acts g c (writable = true) (fun p => alloc p user writable) := by
  intro s p _ hp hun
  refine (alloc_ends s p user writable).mono (fun _ s' h => ⟨?_, ?_⟩) (fun _ _ _ => trivial)
  · exact h.work rfl hp fun hc hw hheld => (hun hc hw).sole hheld
  · obtain ⟨-, rfl⟩ | ⟨-, f, rest, hf, rfl⟩ := h
    · exact .inl (by rw [Kernel.page_setEntry_self])
    · refine .inr ?_
      rw [taken, Kernel.page_setEntry_self, hf]
      exact List.mem_cons_self

theorem lazyAlloc_addr (hp : Editable g s p) :
    Ends (lazyAlloc p user writable fillZero) s
      (fun _ s' => (s'.page p).addr = (s.page p).addr) (fun _ _ => False) := by
  have hpage : ∀ m : TableEntry → TableEntry, (∀ e, (m e).addr = e.addr) →
      ((s.setEntry p m).page p).addr = (s.page p).addr := fun m hm => by
    rw [Kernel.page_setEntry_self, hm]
  refine Ends.bind (Q := fun _ s₁ => s₁ = s.setEntry p ({ · with rw := writable, user := user }))
    rfl ?_
  rintro - s₁ rfl
  rw [Ends.bind_read]
  split
  · refine Ends.of_ok (modify_apply _ _) ?_
    rw [Kernel.page_setEntry_self, Kernel.page_setEntry_self]
  · split
    · refine Ends.of_ok (fillUint32_apply _ _ _) ?_
      change ((scratched _ _).page p).addr = _
      have hp' : Editable g (s.setEntry p ({ · with rw := writable, user := user })) p :=
        ⟨hp.counted, hp.ordinary⟩
      rw [page_scratched hp', Kernel.page_setEntry_self]
    · exact hpage _ fun _ => rfl

theorem lazyAlloc_acts (user writable fillZero : Bool) :
    Acts g c (writable = true ∨ fillZero = true)
      (fun p => lazyAlloc p user writable fillZero) := by
  intro s p _ hp hun
  have hwork := lazyAlloc_ends (K := {p}) rfl hp user writable fillZero
    fun hc hw hheld => (hun hc hw).sole hheld
  exact (hwork.and (lazyAlloc_addr hp)).mono (fun _ s' h => ⟨h.1, .inl h.2⟩) (fun _ _ h => h.elim)

section Acts

variable {act : Slot → Prog Unit} {W : Prop}

/-- A function on the page of an address, which `get_page` finds or makes. Other pages of
the directory that are not shared stay so. -/
theorem Acts.onPage (hact : Acts g c W act) (h : Running g c F s) (hd : d ∈ s.dirs)
    (haddr : OrdinaryPage s addr) (hun : c → W → PageUnshared s d addr) :
    Ends (do let p ← getPageWith kmalloc d addr
             act p) s
      (fun _ s' => ∃ F', Acted g c d F F' s s' ∧ (c → ∀ j, OrdinaryPage s j →
        pageOf j ≠ pageOf addr → PageUnshared s d j → PageUnshared s' d j))
      (fun _ _ => True) := by
  refine Ends.bind ((getPageWith_acted h hd addr).mono (fun _ _ h => h) (fun _ _ _ => trivial)) ?_
  rintro p s₁ ⟨F', hacted, hlook, hkeep⟩
  have hl₁ := hacted.running.linked
  have hd₁ := hacted.dirs hd
  have haddr₁ := hacted.ordinary haddr
  have hp := hl₁.editable hd₁ hlook haddr₁.1 haddr₁.2
  have hunp : c → W → Unshared s₁ p := fun hc hw =>
    hkeep hc addr haddr (hun hc hw) p hlook
  refine (hact s₁ p hacted.running.sound hp hunp).mono ?_ (fun _ _ h => h)
  rintro - s' ⟨hw, hfree⟩
  refine ⟨F', hacted.trans (hacted.running.acted hd₁ hlook hw), fun hc j hj hne hunj q hq => ?_⟩
  rw [hw.lookup_eq] at hq
  have hj₁ := hacted.ordinary hj
  have hq' := hl₁.editable hd₁ hq hj₁.1 hj₁.2
  refine (hkeep hc j hj hunj q hq).work hacted.running.sound hw hq' ?_ hfree
  rintro rfl
  exact hne (hl₁.pageOf_eq_of_lookup hd₁ hq hlook)

/-- The same for all pages of an interval. -/
theorem Acts.onInterval (hact : Acts g c W act) (h : Running g c F s) (hd : d ∈ s.dirs)
    (hpages : ∀ i, start ≤ i → i < stop → OrdinaryPage s i)
    (hun : c → W → ∀ i, start ≤ i → i < stop → PageUnshared s d i) :
    Ends (interval (fun i => do let p ← getPageWith kmalloc d i
                                act p) start stop) s
      (fun _ s' => ∃ F', Acted g c d F F' s s') (fun _ _ => True) := by
  by_cases halign : pageOf start = start ∧ pageOf stop = stop
  swap
  · rw [interval, if_neg halign]
    exact trivial
  let I : Word → Kernel → Prop := fun i s' => ∃ F', Acted g c d F F' s s' ∧
    (c → W → ∀ j, start ≤ j → i ≤ j → j < stop → PageUnshared s' d j)
  have hI : I start s := ⟨F, .refl h, fun hc hw j hle _ hlt => hun hc hw j hle hlt⟩
  refine (interval_ends I hI (fun i s₁ hi hle hlt hI => ?_) (fun _ => trivial)).mono ?_
    (fun _ _ h => h)
  · obtain ⟨F₁, hacted, hun₁⟩ := hI
    refine (hact.onPage hacted.running (hacted.dirs hd) (hacted.ordinary (hpages i hle hlt))
      fun hc hw => hun₁ hc hw i hle (BitVec.le_refl i) hlt).mono ?_ (fun _ _ h => h)
    rintro - s₂ ⟨F₂, hacted₂, hkeep⟩
    refine ⟨F₂, hacted.trans hacted₂, fun hc hw j hlej hnext hltj => ?_⟩
    -- a page behind the next one is not this page
    have hij : i ≤ j ∧ pageOf j ≠ pageOf i := by
      rw [BitVec.le_def, (next_page hi halign.2 hlt).1] at hnext
      refine ⟨by rw [BitVec.le_def]; omega, fun he => ?_⟩
      have hnat := congrArg BitVec.toNat (he.trans hi)
      rw [toNat_pageOf] at hnat
      omega
    exact hkeep hc j (hacted.ordinary (hpages j hlej hltj)) hij.2
      (hun₁ hc hw j hlej hij.1 hltj)
  · rintro - s' ⟨j, -, F', hacted, -⟩
    exact ⟨F', hacted⟩

end Acts

theorem free_acted (h : Running g c F s) (hd : d ∈ s.dirs) (haddr : OrdinaryPage s addr)
    (hlook : lookup s d addr = some p) :
    Ends (free p) s (fun _ s' => Acted g c d F F s s') (fun _ _ => True) :=
  (free_ends (K := {p}) rfl (h.linked.editable hd hlook haddr.1 haddr.2)).mono
    (fun _ _ hw => h.acted hd hlook hw) (fun _ _ _ => trivial)

theorem freeInterval_acted (h : Running g c F s) (hd : d ∈ s.dirs)
    (hpages : ∀ i, start ≤ i → i < stop → OrdinaryPage s i) :
    Ends (freeInterval d start stop) s (fun _ s' => Acted g c d F F s s') (fun _ _ => True) := by
  refine (interval_ends (fun _ s' => Acted g c d F F s s') (.refl h)
    (fun i s₁ _ hle hlt hacted => ?_) (fun _ => trivial)).mono ?_ (fun _ _ h => h)
  · rw [Ends.bind_read]
    split
    · exact hacted
    · next p hlook =>
        rw [Ends.bind_read]
        split
        · exact (free_acted hacted.running (hacted.dirs hd) (hacted.ordinary (hpages i hle hlt))
            hlook).mono (fun _ _ hfree => hacted.trans hfree) (fun _ _ h => h)
        · exact hacted
  · rintro - s' ⟨-, -, hacted⟩
    exact hacted

theorem Cloned.acted {src dest : Word} (hc : Cloned g c F F' src dest s s')
    (h : Running g c F s) : Acted g c src F F' s s' := by
  refine ⟨hc.grown.running h, hc.grown.env, ?_, fun d' hd' _ => ?_, hc.grown.steps.mono ?_⟩
  · rw [hc.dirs]
    exact fun _ => List.mem_cons_of_mem _
  · exact hc.others d' fun e => hc.fresh (e ▸ hd')
  · rintro q (hk | hnew) hq
    · exact (foreign_mem h.linked hq).2 hk
    · exact hnew (foreign_mem h.linked hq).1

/-- The directory that the call works on. -/
def PageOp.dir (s : Kernel) : PageOp → Word
  | .getPage d _ | .alloc d _ _ _ | .lazyAlloc d _ _ _ _ | .free d _ => d
  | .allocInterval d _ _ _ _ | .lazyAllocInterval d _ _ _ _ _ | .freeInterval d _ _ => d
  | .clone src => src
  | .access _ _ _ => s.currentPageDir
  | .enable d => d

/-- An access is permitted, or the handler resolves its fault. -/
theorem access_cases {eip : Word} {write : Bool} (hs : Running g c F s)
    (hrun : (PageOp.access addr write eip).exec s = (.ok (), s')) :
    (s' = s ∧ ∃ f, walk s addr write (decide (s.kernelCodeEnd ≤ eip)) = .ok f) ∨
      ∃ p, lookup s s.currentPageDir addr = some p ∧ Editable g s p ∧ Resolved p s s' ∧
        ∃ errCode, walk s addr write (decide (s.kernelCodeEnd ≤ eip)) = .error errCode := by
  simp only [PageOp.exec, bind_apply, read_apply] at hrun
  cases hwalk : walk s addr write (decide (s.kernelCodeEnd ≤ eip)) with
  | ok f =>
      rw [hwalk] at hrun
      cases hrun
      exact .inl ⟨rfl, f, rfl⟩
  | error errCode =>
      rw [hwalk] at hrun
      obtain ⟨p, hlook, hp, hres⟩ := resolved_of_fault hs.sound hs.linked hs.scratched hwalk hrun
      exact .inr ⟨p, hlook, hp, hres, errCode, rfl⟩

/-- What every call but a switch of directories does. -/
theorem PageStep.acted {op : PageOp} (h : PageStep op s s') (hs : Running g c F s)
    (hr : c → op.Respects s) :
    (∃ F', Acted g c (op.dir s) F F' s s') ∨
      ∃ d ∈ s.dirs, op = .enable d ∧ s' = (enable d s).2 := by
  obtain ⟨hlegal, hrun⟩ := h
  cases op with
  | getPage d addr =>
      obtain ⟨p, t, hp, hpure⟩ := bind_eq_ok hrun
      cases hpure
      obtain ⟨F', hacted, -⟩ := (getPageWith_acted hs hlegal addr).ok hp
      exact .inl ⟨F', hacted⟩
  | alloc d addr user writable =>
      obtain ⟨F', hacted, -⟩ :=
        ((alloc_acts user writable).onPage hs hlegal.1 hlegal.2.1 hr).ok hrun
      exact .inl ⟨F', hacted⟩
  | lazyAlloc d addr user writable fillZero =>
      obtain ⟨F', hacted, -⟩ :=
        ((lazyAlloc_acts user writable fillZero).onPage hs hlegal.1 hlegal.2.1 hr).ok hrun
      exact .inl ⟨F', hacted⟩
  | free d addr =>
      refine .inl ⟨F, ?_⟩
      simp only [PageOp.exec, bind_apply, read_apply] at hrun
      cases hlook : lookup s d addr with
      | none =>
          rw [hlook] at hrun
          cases hrun
          exact .refl hs
      | some p =>
          rw [hlook] at hrun
          exact (free_acted hs hlegal.1 hlegal.2.1 hlook).ok hrun
  | allocInterval d start stop user writable =>
      have hpages := hlegal.2.ordinary
      exact .inl (((alloc_acts user writable).onInterval hs hlegal.1 hpages hr).ok hrun)
  | lazyAllocInterval d start stop user writable fillZero =>
      have hpages := hlegal.2.ordinary
      exact .inl
        (((lazyAlloc_acts user writable fillZero).onInterval hs hlegal.1 hpages hr).ok hrun)
  | freeInterval d start stop =>
      exact .inl ⟨F, (freeInterval_acted hs hlegal.1 hlegal.2.ordinary).ok hrun⟩
  | clone src =>
      obtain ⟨dest, t, hclone, hpure⟩ := bind_eq_ok hrun
      cases hpure
      obtain ⟨F', hc⟩ := (cloneDirectory_ends hs hlegal).ok hclone
      exact .inl ⟨F', hc.acted hs⟩
  | access addr write eip =>
      refine .inl ⟨F, ?_⟩
      obtain ⟨rfl, -⟩ | ⟨p, hlook, hp, hres, -⟩ := access_cases hs hrun
      · exact .refl hs
      · exact hs.acted hs.linked.current hlook (hres.work hs.sound.frames rfl hp)
  | enable d =>
      refine .inr ⟨d, hlegal, rfl, ?_⟩
      cases hrun
      rfl

theorem Running.enable (h : Running g c F s) (hd : d ∈ s.dirs) :
    Running g c F (enable d s).2 :=
  ⟨h.toValid.enable hd, ⟨h.scratched.entry, h.scratched.ne⟩⟩

/-- Calls keep the invariant of the page tables. -/
theorem PageStep.running {op : PageOp} (h : PageStep op s s') (hs : Running g c F s)
    (hr : c → op.Respects s) : ∃ F', Running g c F' s' := by
  obtain ⟨F', hacted⟩ | ⟨d, hd, -, rfl⟩ := h.acted hs hr
  · exact ⟨F', hacted.running⟩
  · exact ⟨F, hs.enable hd⟩

/-! ## The accounting of frames -/

/-- Any number of calls. -/
abbrev PageRuns : Kernel → Kernel → Prop :=
  Relation.ReflTransGen fun s s' => ∃ op, PageStep op s s'

/-- The invariant without its part on copy-on-write. -/
theorem Running.weaken (h : Running g c F s) : Running g False F s :=
  ⟨⟨⟨h.sound.frames, h.sound.shaped, False.elim⟩, h.linked, h.heap⟩, h.scratched⟩

theorem PageRuns.running (h : PageRuns s s') (hs : Running g False F s) :
    ∃ F', Running g False F' s' := by
  induction h with
  | refl => exact ⟨F, hs⟩
  | tail _ hstep ih =>
      obtain ⟨op, hstep⟩ := hstep
      obtain ⟨F', hs'⟩ := ih
      exact hstep.running hs' False.elim

theorem Started.running {live : Multiset Chunk} (h : Started g live s) :
    ∃ F, Running g True F s := by
  obtain ⟨F, own, hown⟩ := h.owned
  exact ⟨F, hown.running h.scratched⟩

/-- The invariant after any number of calls since `Page::init`. -/
theorem PageRuns.of_boot (hrun : PageRuns s₁ s) (hboot : Booted g s₀)
    (hinit : initEmptyPages s₀ = (.ok (), s₁)) : ∃ F, Running g False F s := by
  obtain ⟨F₁, hs₁⟩ := ((initEmptyPages_ends hboot).ok hinit).1.running
  exact hrun.running hs₁.weaken

/-- A frame is on the stack once and held by no entry, or it is off the stack and its count
is the number of entries that hold it. -/
def Accounted (s : Kernel) (f : Frame) : Prop :=
  ((holders s f).Nonempty → (s.frameRefCnt f).toNat = (holders s f).ncard ∧ f ∉ s.frames) ∧
    (holders s f = ∅ → s.frames.count f = 1)

theorem FrameInv.accounted {f : Frame} (h : FrameInv g s) (hf : f ∈ g.managed) :
    Accounted s f := by
  by_cases hmem : f ∈ s.frames
  · have hnone := h.onStack f hmem
    refine ⟨fun hsome => ?_, fun _ => List.count_eq_one_of_mem h.nodup hmem⟩
    rw [hnone] at hsome
    exact absurd hsome Set.not_nonempty_empty
  · obtain ⟨hsome, href⟩ := h.offStack f hf hmem
    exact ⟨fun _ => ⟨href, hmem⟩, fun hnone => absurd hnone hsome.ne_empty⟩

theorem frames_accounted (hboot : Booted g s₀) (hinit : initEmptyPages s₀ = (.ok (), s₁))
    (hrun : PageRuns s₁ s) : ∀ f ∈ s₀.frames, Accounted s f := by
  intro f hf
  obtain ⟨F, hs⟩ := hrun.of_boot hboot hinit
  exact hs.sound.frames.accounted (hboot.sound.frames.free f hf)

/-- The boot kernel with one more page. -/
@[irreducible] def bootMapped : Kernel :=
  ((PageOp.alloc 0x2E0000 0xEFC10000 true true).exec bootStarted).2

/-- The page is one that may be mapped, and then it has a frame. -/
theorem bootMapped_facts :
    PlainPage bootStarted 0xEFC10000 ∧
    ((PageOp.alloc 0x2E0000 0xEFC10000 true true).exec bootStarted).1.toOption = some () ∧
    PlainPage bootMapped 0xEFC10000 ∧ 0x2E0000 ∈ bootMapped.dirs ∧
    (lookup bootMapped 0x2E0000 0xEFC10000).map (fun p =>
      decide ((bootMapped.page p).addr ≠ 0)) = some true := by
  unfold PlainPage OrdinaryPage IdentityPage ScratchPage HoldsTable
  decide +kernel

theorem bootMapped_run :
    (PageOp.alloc 0x2E0000 0xEFC10000 true true).exec bootStarted = (.ok (), bootMapped) := by
  rw [bootMapped]
  exact eq_ok_of_toOption bootMapped_facts.2.1

theorem bootStarted_plain : PlainPage bootStarted 0xEFC10000 := bootMapped_facts.1

theorem bootMapped_step :
    PageStep (.alloc 0x2E0000 0xEFC10000 true true) bootStarted bootMapped :=
  ⟨⟨by rw [bootStarted_dirs]; decide, bootStarted_plain⟩, bootMapped_run⟩

theorem boot_accounted : bootKernel.frames.Forall (Accounted bootMapped) := by
  refine List.forall_iff_forall_mem.mpr fun f hf => ?_
  have hrun : PageRuns bootStarted bootMapped := .single ⟨_, bootMapped_step⟩
  exact frames_accounted bootKernel_booted bootStarted_run hrun f hf

end Jkos.Page
