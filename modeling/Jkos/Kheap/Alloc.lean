import Jkos.Kheap.Reserve
import Jkos.Page.Memory

/-!
# `kmalloc` on mapped pages

`kmalloc` reserves a block, opens its pages and writes the header. In a valid state the
tables of the heap exist, so it never calls itself, and it fails only when frames, heap or
tree nodes are used up.
-/

namespace Jkos.Page

open Exec Kheap

variable {g : Layout} {c : Prop} {K : Set Slot} {s s' s'' : Kernel} {p q : Slot}
  {F F' : Multiset Block}

/-- The blocks hold no table, directory or scratch page. -/
structure Clear (B : Multiset Block) (s : Kernel) : Prop where
  tables : ∀ t ∈ s.tables, depthOf B t.toNat = 0
  dirs : ∀ d ∈ s.dirs, ∀ k < sizeofDirectory.toNat, depthOf B (d.toNat + k) = 0
  scratch : ∀ a, ScratchPage s a → depthOf B a.toNat = 0

/-- The free blocks `F` of the heap. -/
structure HeapInv (F : Multiset Block) (s : Kernel) : Prop extends Clear F s where
  frees : Frees s.heap F F
  proper : ∀ b ∈ F, b.Proper
  once : ∀ x, depthOf F x ≤ 1

/-- A state in which the memory subsystem works. -/
structure Valid (g : Layout) (c : Prop) (F : Multiset Block) (s : Kernel) : Prop where
  sound : Sound g c s
  linked : Linked g s
  heap : HeapInv F s

theorem Clear.congr {B : Multiset Block} (h : Clear B s) (hrest : s'.rest = s.rest) :
    Clear B s' := by
  have h' : Clear B s.rest := ⟨h.tables, h.dirs, h.scratch⟩
  rw [← hrest] at h'
  exact ⟨h'.tables, h'.dirs, h'.scratch⟩

/-- Blocks that cover less are clear of more. -/
theorem Clear.mono {B B' : Multiset Block} (h : Clear B s) (hle : ∀ x, depthOf B' x ≤ depthOf B x) :
    Clear B' s := by
  refine ⟨fun t ht => ?_, fun d hd k hk => ?_, fun a ha => ?_⟩
  · exact Nat.le_zero.mp ((hle _).trans (h.tables t ht).le)
  · exact Nat.le_zero.mp ((hle _).trans (h.dirs d hd k hk).le)
  · exact Nat.le_zero.mp ((hle _).trans (h.scratch a ha).le)

/-- Two clear sets of blocks together. -/
theorem Clear.add {A B B' : Multiset Block} (hA : Clear A s) (hB : Clear B s)
    (heq : ∀ x, depthOf B' x = depthOf A x + depthOf B x) : Clear B' s := by
  refine ⟨fun t ht => ?_, fun d hd k hk => ?_, fun a ha => ?_⟩
  · rw [heq, hA.tables t ht, hB.tables t ht]
  · rw [heq, hA.dirs d hd k hk, hB.dirs d hd k hk]
  · rw [heq, hA.scratch a ha, hB.scratch a ha]

theorem HeapInv.congr (h : HeapInv F s) (hrest : s'.rest = s.rest) : HeapInv F s' := by
  have hheap : s'.heap = s.heap := (congrArg Kernel.heap hrest :)
  exact ⟨h.toClear.congr hrest, hheap ▸ h.frees, h.proper, h.once⟩

theorem Valid.work (h : Valid g c F s) (hwork : Work g c K s s') : Valid g c F s' :=
  ⟨hwork.steps.sound h.sound, h.linked.congr hwork.rest, h.heap.congr hwork.rest⟩

/-- Fewer free blocks leave more room. -/
theorem HeapInv.reserve {h' : Heap} (h : HeapInv F s) (hfrees : Frees h' F' F') {size start : Word}
    {palign : Nat} {got : Block} (hres : Reserved F F' size palign start got) :
    HeapInv F' { s with heap := h' } := by
  have hle : ∀ x, depthOf F' x ≤ depthOf F x := fun x => by rw [hres.depth x]; omega
  have hclear := h.toClear.mono hle
  exact ⟨⟨hclear.tables, hclear.dirs, hclear.scratch⟩, hfrees, hres.free,
    fun x => (hle x).trans (h.once x)⟩

/-- A program of the trees changes nothing but the heap. -/
theorem onHeap_ends {α : Type} {x : Exec Heap Fault α} {Q : α → Heap → Prop}
    {E : Fault → Heap → Prop} (h : Ends x s.heap Q E) :
    Ends (onHeap x) s (fun a s' => ∃ h', Q a h' ∧ s' = { s with heap := h' })
      (fun e s' => E e s'.heap) := by
  cases hx : x s.heap with
  | mk r h' =>
      cases r with
      | ok a =>
          have hrun : onHeap x s = (.ok a, { s with heap := h' }) := by simp only [onHeap, hx]
          exact .of_ok hrun ⟨h', h.ok hx, rfl⟩
      | error e =>
          have hrun : onHeap x s = (.error e, { s with heap := h' }) := by simp only [onHeap, hx]
          exact .of_error hrun (h.error hx)

/-! ## Loops over pages -/

/-- The next page below a page bound. -/
theorem next_page {i stop : Word} (hi : pageOf i = i) (hstop : pageOf stop = stop)
    (hlt : i < stop) : (i + 0x1000).toNat = i.toNat + 4096 ∧ pageOf (i + 0x1000) = i + 0x1000 ∧
      i.toNat + 4096 ≤ stop.toNat := by
  have hi' := congrArg BitVec.toNat hi
  have hstop' := congrArg BitVec.toNat hstop
  rw [toNat_pageOf] at hi' hstop'
  rw [BitVec.lt_def] at hlt
  have hsize := stop.isLt
  have hle : i.toNat + 4096 ≤ stop.toNat := by omega
  have hnext : (i + 0x1000).toNat = i.toNat + 4096 := by
    rw [BitVec.toNat_add, show (0x1000 : Word).toNat = 4096 from rfl]
    exact Nat.mod_eq_of_lt (by omega)
  refine ⟨hnext, Word.ext_toNat ?_, hle⟩
  rw [toNat_pageOf, hnext, Nat.add_div_right _ (by decide), Nat.succ_mul, hi']

/-- A loop over whole pages ends, with what every turn preserves. -/
theorem forPages_ends {body : Word → Prog Unit} {stop : Word} {E : Fault → Kernel → Prop}
    (I : Word → Kernel → Prop) (hstop : pageOf stop = stop)
    (hbody : ∀ i s, pageOf i = i → i < stop → I i s →
      Ends (body i) s (fun _ s' => I (i + 0x1000) s') E) :
    ∀ fuel i s, pageOf i = i → I i s → stop.toNat - i.toNat < fuel →
      Ends (forPages body stop fuel i) s (fun _ s' => ∃ j, stop ≤ j ∧ I j s') E := by
  intro fuel
  induction fuel with
  | zero => exact fun _ _ _ _ hlt => absurd hlt (Nat.not_lt_zero _)
  | succ fuel ih =>
      intro i s hi hI hlt
      rw [forPages]
      split
      · next hlt' =>
          refine Ends.bind (hbody i s hi hlt' hI) fun _ s' hI' => ?_
          obtain ⟨hnext, halign, hle⟩ := next_page hi hstop hlt'
          exact ih (i + 0x1000) s' halign hI' (by rw [hnext]; omega)
      · next hge => exact ⟨i, BitVec.not_lt.mp hge, hI⟩

/-- An interval function, on bounds that its assertions accept. -/
theorem interval_ends {body : Word → Prog Unit} {start stop : Word} {E : Fault → Kernel → Prop}
    (I : Word → Kernel → Prop) (hI : I start s)
    (hbody : ∀ i s, pageOf i = i → start ≤ i → i < stop → I i s →
      Ends (body i) s (fun _ s' => I (i + 0x1000) s') E)
    (hassert : ¬ (pageOf start = start ∧ pageOf stop = stop) → E .assertion s) :
    Ends (interval body start stop) s (fun _ s' => ∃ j, stop ≤ j ∧ I j s') E := by
  rw [interval]
  split
  · next halign =>
      have hloop := forPages_ends (fun i s => start ≤ i ∧ I i s) halign.2
        (fun i s hi hlt h => (hbody i s hi h.1 hlt h.2).mono (fun _ s' h' => ⟨?_, h'⟩)
          (fun _ _ h => h)) loopBound start s halign.1 ⟨BitVec.le_refl start, hI⟩
        (Nat.lt_of_le_of_lt (Nat.sub_le _ _) stop.isLt)
      · exact hloop.mono (fun _ s' ⟨j, hj, _, h⟩ => ⟨j, hj, h⟩) (fun _ _ h => h)
      · obtain ⟨hnext, -, -⟩ := next_page hi halign.2 hlt
        have hle := h.1
        rw [BitVec.le_def] at hle ⊢
        omega
  · next h => exact hassert h

/-! ## Opening heap pages -/

/-- The entries of the tables that every directory links. -/
def Layout.kernelSlots (g : Layout) : Set Slot := {p | p.table ∈ g.kernel}

/-- The tables of the identity map have smaller indices than those of the heap. -/
theorem Linked.slot_notMem_identity (h : Linked g s) {a : Word} (ha : HeapAddr a) :
    g.slot a ∉ g.identity := by
  intro hmem
  obtain ⟨b, -, hlow, hslot⟩ := h.identity _ hmem
  rw [Layout.slot, Layout.slot, Slot.mk.injEq] at hslot
  have hidx := h.inj _ _ (shared_of_heap ha) (.inl hlow) hslot.1
  have := ha.idx.1
  have := h.lowLe
  rw [hidx] at *
  omega

/-- Outside the scratch pages, the entries of the heap are editable. -/
theorem Linked.editable_heap (h : Linked g s) {a : Word} (ha : HeapAddr a)
    (hscratch : ¬ ScratchPage s a) : Editable g s (g.slot a) := by
  have hi : g.Shared (tbIdx a) := shared_of_heap ha
  have hscr : ∀ {q : Slot} {b : Word}, ScratchSlot g s q b → g.slot a = q → pageOf a = b := by
    rintro q b hq rfl
    obtain ⟨hslot, hb, halign⟩ := hq (h.kernel _ hi).1
    exact (h.slot_inj hi (shared_of_heap hb) hslot).trans halign
  exact ⟨⟨(h.kernel _ hi).1, fun e => hscratch (.inl (hscr h.scratch0 e)),
    fun e => hscratch (.inr (hscr h.scratch1 e))⟩, h.slot_notMem_identity ha⟩

theorem getPageWith_of_lookup {kmalloc : Word → Nat → Prog Word} {d a : Word}
    (h : lookup s d a = some p) : getPageWith kmalloc d a s = (.ok p, s) := by
  rw [lookup] at h
  split at h
  · cases h
  · next hne =>
      rw [← Option.some.inj h]
      simp only [getPageWith, bind_apply, read_apply, if_neg hne, pure_apply]

/-- What `lazy_alloc` without filling makes of an entry. -/
def lazyEntry (user writable : Bool) (e : TableEntry) : TableEntry :=
  if e.addr = 0 then { e with rw := writable, user := user, allocable := true, allocFill := 0 }
  else { e with rw := writable, user := user }

theorem lazyAlloc_noFill (s : Kernel) (p : Slot) (user writable : Bool) :
    lazyAlloc p user writable false s = (.ok (), s.setEntry p (lazyEntry user writable)) := by
  have hmerge := Kernel.setEntry_setEntry s p ({ · with rw := writable, user := user })
    ({ · with allocable := true, allocFill := 0 })
  by_cases h : (s.page p).addr = 0
  · simp only [lazyAlloc, bind_apply, modify_apply, read_apply, Kernel.page_setEntry_self, if_pos h,
      Bool.false_eq_true, if_false]
    rw [hmerge]
    simp only [Kernel.setEntry, lazyEntry, if_pos h]
  · simp only [lazyAlloc, bind_apply, modify_apply, read_apply, Kernel.page_setEntry_self, if_neg h,
      Bool.false_eq_true, if_false, pure_apply]
    simp only [Kernel.setEntry, lazyEntry, if_neg h]

/-- A heap page that the kernel may use. -/
def Opened (s : Kernel) (p : Slot) : Prop :=
  (s.page p).rw = true ∧ (s.page p).user = false ∧ (s.page p).allocable = true

/-- Pages have been opened, and no frame or its contents have changed. -/
structure Marked (s s' : Kernel) : Prop where
  phys : s'.phys = s.phys
  addr : ∀ q, (s'.page q).addr = (s.page q).addr
  opened : ∀ q, Opened s q → Opened s' q

theorem lazyEntry_opened (hp : Shape (s.page p)) :
    Opened (s.setEntry p (lazyEntry false true)) p := by
  rw [Opened, Kernel.page_setEntry_self, lazyEntry]
  split
  · exact ⟨rfl, rfl, rfl⟩
  · next hheld => exact ⟨rfl, rfl, hp.2 hheld⟩

/-- An open page stays open. -/
theorem lazyEntry_keeps (h : Opened s q) : Opened (s.setEntry p (lazyEntry false true)) q := by
  rcases eq_or_ne q p with rfl | hne
  · rw [Opened, Kernel.page_setEntry_self, lazyEntry]
    split
    · exact ⟨rfl, rfl, rfl⟩
    · exact ⟨rfl, rfl, h.2.2⟩
  · rw [Opened, Kernel.page_setEntry_of_ne _ _ hne]
    exact h

theorem lazyEntry_addr (user writable : Bool) (e : TableEntry) :
    (lazyEntry user writable e).addr = e.addr := by
  rw [lazyEntry]
  split <;> rfl

theorem lazyEntry_shape (user writable : Bool) {e : TableEntry} (h : Shape e) :
    Shape (lazyEntry user writable e) := by
  rw [lazyEntry]
  split
  · next hzero => exact ⟨h.1, fun hne => absurd hzero hne⟩
  · exact h

/-- The page-table part of `kmalloc`: every page of the range becomes open to the kernel. -/
theorem openPages_ends {kmalloc : Word → Nat → Prog Word} {lo hi : Word} (hs : Sound g c s)
    (hl : Linked g s) (halign : pageOf lo = lo ∧ pageOf hi = hi)
    (hheap : ∀ i, pageOf i = i → lo ≤ i → i < hi → HeapAddr i ∧ ¬ ScratchPage s i) :
    Ends (lazyAllocIntervalWith kmalloc s.currentPageDir lo hi false true false) s
      (fun _ s' => Work g c g.kernelSlots s s' ∧ Marked s s' ∧
        ∀ i, pageOf i = i → lo ≤ i → i < hi → Opened s' (g.slot i))
      (fun _ _ => False) := by
  let I : Word → Kernel → Prop := fun i s' => Work g c g.kernelSlots s s' ∧ Marked s s' ∧
    ∀ j, pageOf j = j → lo ≤ j → j < i → j < hi → Opened s' (g.slot j)
  have hI : I lo s := by
    refine ⟨.refl, ⟨rfl, fun _ => rfl, fun _ h => h⟩, fun j _ hle hlt => ?_⟩
    rw [BitVec.le_def] at hle
    rw [BitVec.lt_def] at hlt
    omega
  refine (interval_ends I hI (fun i s₁ hi' hle hlt h => ?_) (fun h => h halign)).mono ?_
    (fun _ _ h => h)
  · obtain ⟨hwork, hmarked, hopened⟩ := h
    obtain ⟨haddr, hscratch⟩ := hheap i hi' hle hlt
    have hl₁ := hl.congr hwork.rest
    have hlook : lookup s₁ s.currentPageDir i = some (g.slot i) := by
      rw [← hwork.current_eq]
      exact (hl₁.lookup_heap hl₁.current haddr).1
    have hedit : Editable g s₁ (g.slot i) := hwork.steps.editable (hl.editable_heap haddr hscratch)
    have hshape := (hwork.steps.sound hs).shaped _ hedit
    have hk : (g.slot i).table ∈ g.kernel := (hl.lookup_heap hl.current haddr).2
    rw [Ends.bind_of_ok (getPageWith_of_lookup hlook)]
    refine .of_ok (lazyAlloc_noFill s₁ (g.slot i) false true) ⟨?_, ⟨hmarked.phys, fun q => ?_,
      fun q hq => lazyEntry_keeps (hmarked.opened q hq)⟩, fun j hj hlej hltj hltj' => ?_⟩
    · refine hwork.trans (.single (.flags _ _ hk hedit (lazyEntry_addr _ _ _)
        (lazyEntry_shape _ _) (fun _ _ _ => .inl hk)) rfl)
    · rcases eq_or_ne q (g.slot i) with rfl | hne
      · rw [Kernel.page_setEntry_self, lazyEntry_addr]
        exact hmarked.addr _
      · rw [Kernel.page_setEntry_of_ne _ _ hne]
        exact hmarked.addr q
    · by_cases he : g.slot j = g.slot i
      · rw [he]
        exact lazyEntry_opened hshape
      · have hlt' : j < i := by
          have hji : j ≠ i := fun e => he (e ▸ rfl)
          obtain ⟨hnext, -, -⟩ := next_page hi' halign.2 hlt
          have hjn := congrArg BitVec.toNat hj
          have hin := congrArg BitVec.toNat hi'
          rw [toNat_pageOf] at hjn hin
          have hne : j.toNat ≠ i.toNat := fun e => hji (Word.ext_toNat e)
          rw [BitVec.lt_def, hnext] at hltj
          rw [BitVec.lt_def]
          omega
        rw [Opened, Kernel.page_setEntry_of_ne _ _ he]
        exact hopened j hj hlej hlt' hltj'
  · rintro - s' ⟨j, hj, hwork, hmarked, hopened⟩
    refine ⟨hwork, hmarked, fun i hi' hle hlt => hopened i hi' hle ?_ hlt⟩
    rw [BitVec.lt_def] at hlt ⊢
    rw [BitVec.le_def] at hj
    omega

/-- A page that the kernel may use is open to kernel code. -/
theorem Opened.granted (h : Opened s p) {eip : Word} (heip : eip < s.kernelCodeEnd) (write : Bool) :
    Granted s p write eip := ⟨⟨h.2.2, .inr heip⟩, fun _ => .inl h.1⟩

theorem Opened.copyable (h : Opened s p) : Copyable s p := fun huser =>
  absurd (huser.symm.trans h.2.1) (by decide)

/-! ## `kmalloc` -/

/-- The byte at an address of a page with a frame. -/
def Cell (s : Kernel) (d b : Word) (w : Byte) : Prop :=
  ∃ q, lookup s d b = some q ∧ (s.page q).addr ≠ 0 ∧ s.phys (s.page q).addr (pageOffset b) = w

/-- What `kmalloc` achieves: the block `got` is reserved, its pages are open, and the
header is in place. -/
structure Malloced (g : Layout) (c : Prop) (F F' : Multiset Block) (size : Word) (palign : Nat)
    (start : Word) (got : Block) (s s' : Kernel) : Prop where
  valid : Valid g c F' s'
  reserved : Reserved F F' size palign start got
  steps : Steps g c g.kernelSlots s s'
  rest : s'.rest = ({ s with heap := s'.heap } : Kernel).rest
  opened : ∀ a : Word, start.toNat - 8 ≤ a.toNat → a.toNat < start.toNat + size.toNat →
    HeapAddr a ∧ ¬ ScratchPage s' a ∧ Opened s' (g.slot a)
  kept : ∀ q, Editable g s q → Opened s q → Opened s' q
  /-- Only the pages of the header are given frames, and no page loses its own. -/
  frames : ∀ q, Editable g s q → (s'.page q).addr ≠ (s.page q).addr →
    (s.page q).addr = 0 ∧ ∃ a : Word, start.toNat - 8 ≤ a.toNat ∧ a.toNat < start.toNat ∧
      q = g.slot a
  header : c → ∀ k (hk : k < got.bytes.length),
    Cell s' s.currentPageDir (start - 8 + BitVec.ofNat 32 k) got.bytes[k]
  other : c → ∀ b w, HeapAddr b → ¬ ScratchPage s b →
    b.toNat < start.toNat - 8 ∨ start.toNat ≤ b.toNat →
    Cell s s.currentPageDir b w → Cell s' s.currentPageDir b w

/-- An address is in the page that begins at most a page before it. -/
theorem pageOf_of_mem {i x : Word} (hi : pageOf i = i) (h₁ : i.toNat ≤ x.toNat)
    (h₂ : x.toNat < i.toNat + 4096) : pageOf x = i := by
  have hin := congrArg BitVec.toNat hi
  rw [toNat_pageOf] at hin
  have hdiv : x.toNat / 4096 = i.toNat / 4096 := by
    rw [Nat.div_eq_iff (by decide)]
    omega
  apply Word.ext_toNat
  rw [toNat_pageOf, hdiv, hin]

variable {size start : Word} {palign : Nat} {got : Block}

section Reserved

variable (hres : Reserved F F' size palign start got)
include hres

theorem reserved_header : (start - sizeofBlock).toNat = start.toNat - 8 := by
  have h := hres.header
  rw [BitVec.toNat_sub_of_le]
  · rfl
  · rw [BitVec.le_def, show sizeofBlock.toNat = 8 from rfl]
    omega

theorem reserved_bounds :
    (pageOf (start - sizeofBlock)).toNat = (start.toNat - 8) / 4096 * 4096 ∧
      (getAligned (start + size) 12).toNat = (start.toNat + size.toNat + 4095) / 4096 * 4096 ∧
      0xEFC00000 ≤ start.toNat - 8 ∧ start.toNat + size.toNat ≤ 0xFFC00000 := by
  have hlo := hres.kept.lo
  have hhi := hres.kept.hi
  have hhead := hres.header
  have hpay := hres.payload
  have hsum : (start + size).toNat = start.toNat + size.toNat := by
    rw [BitVec.toNat_add]
    exact Nat.mod_eq_of_lt (by omega)
  refine ⟨?_, ?_, by omega, by omega⟩
  · rw [toNat_pageOf, reserved_header hres]
  · rw [toNat_getAligned (by rw [hsum]; omega), hsum]
    rfl

/-- The pages of a reserved block lie in the heap and are not the scratch pages. -/
theorem reserved_pages (hheap : HeapInv F s) (i : Word) (hi : pageOf i = i)
    (h₁ : pageOf (start - sizeofBlock) ≤ i) (h₂ : i < getAligned (start + size) 12) :
    HeapAddr i ∧ ¬ ScratchPage s i := by
  obtain ⟨hlo, hhi, hbegin, hend⟩ := reserved_bounds hres
  have hin := congrArg BitVec.toNat hi
  rw [toNat_pageOf] at hin
  rw [BitVec.le_def, hlo] at h₁
  rw [BitVec.lt_def, hhi] at h₂
  refine ⟨⟨by omega, by omega⟩, fun hscratch => ?_⟩
  -- an address of the block in this page
  obtain ⟨x, h₃, h₄, h₅, h₆⟩ : ∃ x : Word, i.toNat ≤ x.toNat ∧ x.toNat < i.toNat + 4096 ∧
      start.toNat - 8 ≤ x.toNat ∧ x.toNat < start.toNat + size.toNat := by
    rcases Nat.le_total i.toNat (start.toNat - 8) with hle | hle
    · exact ⟨start - sizeofBlock, by rw [reserved_header hres]; omega⟩
    · exact ⟨i, by omega⟩
  have hzero := hheap.scratch x (by
    rw [ScratchPage, pageOf_of_mem hi h₃ h₄, ← hi]
    exact hscratch)
  have hhead := hres.header
  have hpay := hres.payload
  rw [hres.depth, Cover.Span.at_of_mem (a := got.span) (by simp only [Block.span]; omega)] at hzero
  omega

/-- The addresses of header and payload lie in these pages. -/
theorem reserved_inside {a : Word} (h₁ : start.toNat - 8 ≤ a.toNat)
    (h₂ : a.toNat < start.toNat + size.toNat) :
    HeapAddr a ∧ pageOf (start - sizeofBlock) ≤ pageOf a ∧
      pageOf a < getAligned (start + size) 12 := by
  obtain ⟨hlo, hhi, hbegin, hend⟩ := reserved_bounds hres
  rw [BitVec.le_def, BitVec.lt_def, hlo, hhi, toNat_pageOf]
  refine ⟨⟨by omega, by omega⟩, ?_, ?_⟩ <;> omega

end Reserved

/-- The entry of a page is that of its addresses. -/
theorem slot_pageOf (a : Word) : g.slot (pageOf a) = g.slot a := by
  obtain ⟨h₁, h₂⟩ := idx_eq_of_pageOf (pageOf_pageOf a)
  rw [Layout.slot, Layout.slot, h₁, h₂]

theorem Linked.setHeap (h : Linked g s) (h' : Heap) : Linked g { s with heap := h' } :=
  ⟨h.finished, h.heapReady, h.code, h.low, h.lowLe, h.current, h.kernel, h.inj, h.shared,
    ⟨h.owned.own, h.owned.unique⟩, h.identity, h.scratch0, h.scratch1⟩

theorem Valid.reserve (h : Valid g c F s) {h' : Heap} (hfrees : Frees h' F' F')
    {size start : Word} {palign : Nat} {got : Block}
    (hres : Reserved F F' size palign start got) : Valid g c F' { s with heap := h' } := by
  have hstep : Step g c ∅ s { s with heap := h' } := .other rfl rfl rfl rfl rfl rfl rfl
  exact ⟨hstep.sound h.sound, h.linked.setHeap h', h.heap.reserve hfrees hres⟩

theorem cell_iff_peek {d b : Word} {w : Byte} (hlook : lookup s d b = some q)
    (hheld : (s.page q).addr ≠ 0) : Cell s d b w ↔ peek s d b = some w := by
  rw [peek_eq_some hlook, view, if_pos hheld]
  constructor
  · rintro ⟨q', hlook', -, hw⟩
    rw [hlook] at hlook'
    cases hlook'
    exact ⟨_, rfl, hw⟩
  · rintro ⟨bytes, hbytes, hw⟩
    cases hbytes
    exact ⟨q, hlook, hheld, hw⟩

theorem toNat_add_ofNat {a : Word} {k n : Nat} (h : a.toNat + n ≤ 2 ^ 32) (hk : k < n) :
    (a + BitVec.ofNat 32 k).toNat = a.toNat + k := by
  rw [BitVec.toNat_add, BitVec.toNat_ofNat, Nat.mod_eq_of_lt (a := k) (by omega)]
  exact Nat.mod_eq_of_lt (by omega)

theorem Opened.touch (h : Opened s p) (htouch : Touch g c K s s') (hp : Editable g s p)
    (hcode : s.kernelCodeEnd ≠ 0) : Opened s' p := by
  have huser : (s'.page p).user = false := (htouch.user p hp).trans h.2.1
  have hgrant := htouch.granted p hp true _ (h.granted (kernelEip_lt hcode) true)
  refine ⟨(hgrant.writable rfl).resolve_right ?_, huser, hgrant.isOpen.1⟩
  rw [huser]
  decide

/-- Changes of permissions keep the bytes of pages with frames. -/
theorem Cell.marked {d b : Word} {w : Byte} (h : Cell s d b w) (hmarked : Marked s s')
    (hdir : s'.dir = s.dir) : Cell s' d b w := by
  obtain ⟨q, hlook, hheld, hw⟩ := h
  refine ⟨q, ?_, ?_, ?_⟩
  · rw [lookup, hdir]
    exact hlook
  · rw [hmarked.addr]
    exact hheld
  · rw [hmarked.addr, hmarked.phys]
    exact hw

/-- The entries of the pages of a header. -/
def Layout.headerSlots (g : Layout) (start : Word) : Set Slot :=
  {q | ∃ a : Word, start.toNat - 8 ≤ a.toNat ∧ a.toNat < start.toNat ∧ q = g.slot a}

/-- The bytes of a header are in open pages. -/
theorem header_ready (hvalid : Valid g c F s) (hres : Reserved F' F size palign start got)
    (hopened : ∀ a : Word, start.toNat - 8 ≤ a.toNat → a.toNat < start.toNat + size.toNat →
      HeapAddr a ∧ ¬ ScratchPage s a ∧ Opened s (g.slot a)) :
    ∀ k < got.bytes.length,
      (start - sizeofBlock + BitVec.ofNat 32 k).toNat = start.toNat - 8 + k ∧
      lookup s s.currentPageDir (start - sizeofBlock + BitVec.ofNat 32 k) =
        some (g.slot (start - sizeofBlock + BitVec.ofNat 32 k)) ∧
      Ready g s (start - sizeofBlock + BitVec.ofNat 32 k) true (s.kernelCodeEnd - 1) := by
  have hl := hvalid.linked
  have hhead := reserved_header hres
  have hbegin := (reserved_bounds hres).2.2
  intro k hk
  change k < 8 at hk
  have haddr : (start - sizeofBlock + BitVec.ofNat 32 k).toNat = start.toNat - 8 + k := by
    rw [toNat_add_ofNat (n := 8) (by omega) hk, hhead]
  obtain ⟨hheap, hscratch, hopen⟩ :=
    hopened (start - sizeofBlock + BitVec.ofNat 32 k) (by rw [haddr]; omega) (by rw [haddr]; omega)
  have hlook := (hl.lookup_heap hl.current hheap).1
  exact ⟨haddr, hlook, _, hlook, hl.editable_heap hheap hscratch,
    hopen.granted (kernelEip_lt hl.code) true, hopen.copyable⟩

/-- The part of `kmalloc` behind the reservation: the header goes into an open page. -/
theorem storeHeader_ends (hvalid : Valid g c F s) (hres : Reserved F' F size palign start got)
    (hopened : ∀ a : Word, start.toNat - 8 ≤ a.toNat → a.toNat < start.toNat + size.toNat →
      HeapAddr a ∧ ¬ ScratchPage s a ∧ Opened s (g.slot a)) :
    Ends (store (start - sizeofBlock) got.bytes) s
      (fun _ s' => Touch g c (g.headerSlots start) s s' ∧
        Stored g c (start - sizeofBlock) got.bytes s s' ∧
        (c → ∀ k (hk : k < got.bytes.length),
          Cell s' s.currentPageDir (start - 8 + BitVec.ofNat 32 k) got.bytes[k]))
      (fun e _ => e = .noFreeFrame) := by
  have hready := header_ready hvalid hres hopened
  refine (store_ends (K := g.headerSlots start) (fun k hk q hq => ?_) hvalid.sound hvalid.linked
    (by change 8 ≤ _; omega) (fun k hk => (hready k hk).2.2)).mono ?_ (fun _ _ h => h)
  · obtain ⟨haddr, hlook, -⟩ := hready k hk
    rw [hlook] at hq
    rw [← Option.some.inj hq]
    change k < 8 at hk
    have := hres.header
    exact ⟨_, by omega, by omega, rfl⟩
  · rintro - s' ⟨htouch, hstored⟩
    refine ⟨htouch, hstored, fun hc k hk => ?_⟩
    obtain ⟨-, hlook, -⟩ := hready k hk
    refine (cell_iff_peek (htouch.work.lookup_eq _ _ ▸ hlook) ?_).mpr (hstored.bytes hc k hk)
    exact hstored.held k hk _ hlook

/-- What `kmalloc` does with the block that it has reserved. -/
def commit (kmalloc : Word → Nat → Prog Word) (size : Word) (r : Word × Block) : Prog Word := do
  lazyAllocIntervalWith kmalloc (← read (·.currentPageDir)) (pageOf (r.1 - sizeofBlock))
    (getAligned (r.1 + size) 12) false true false
  store (r.1 - sizeofBlock) r.2.bytes
  pure r.1

theorem kmallocWith_eq (kmalloc : Word → Nat → Prog Word) (hready : s.kheapFinishInit = true) :
    kmallocWith kmalloc size palign s =
      (onHeap (reserve size palign loopBound (firstReq size)) >>= commit kmalloc size) s := by
  have hready : ¬ s.kheapFinishInit = false := by
    rw [hready]
    decide
  rw [kmallocWith, bind_ok (read_apply _ _), if_neg hready]
  rfl

/-- All pages of a reserved block become open to the kernel. -/
theorem openBlock_ends (kmalloc : Word → Nat → Prog Word) (h : Valid g c F s) {h' : Heap}
    (hfrees : Frees h' F' F') (hres : Reserved F F' size palign start got) :
    Ends (lazyAllocIntervalWith kmalloc s.currentPageDir (pageOf (start - sizeofBlock))
      (getAligned (start + size) 12) false true false) { s with heap := h' }
      (fun _ s' => Work g c g.kernelSlots { s with heap := h' } s' ∧
        Marked { s with heap := h' } s' ∧
        ∀ a : Word, start.toNat - 8 ≤ a.toNat → a.toNat < start.toNat + size.toNat →
          HeapAddr a ∧ ¬ ScratchPage s' a ∧ Opened s' (g.slot a))
      (fun _ _ => False) := by
  have hvalid₁ := h.reserve hfrees hres
  have hlo : pageOf (pageOf (start - sizeofBlock)) = pageOf (start - sizeofBlock) :=
    pageOf_pageOf _
  have hhi : pageOf (getAligned (start + size) 12) = getAligned (start + size) 12 :=
    pageOf_getAligned _
  refine (openPages_ends hvalid₁.sound hvalid₁.linked ⟨hlo, hhi⟩
    (fun i hi h₁ h₂ => reserved_pages hres h.heap i hi h₁ h₂)).mono ?_ (fun _ _ h => h)
  rintro - s₂ ⟨hwork, hmarked, hopened⟩
  refine ⟨hwork, hmarked, fun a h₁ h₂ => ?_⟩
  obtain ⟨hheap, hle, hlt⟩ := reserved_inside hres h₁ h₂
  have hpage := reserved_pages hres h.heap (pageOf a) (pageOf_pageOf a) hle hlt
  refine ⟨hheap, fun hs => hpage.2 ?_, ?_⟩
  · rw [ScratchPage, pageOf_pageOf]
    exact (hwork.scratchPage_iff a).mp hs
  · rw [← slot_pageOf]
    exact hopened (pageOf a) (pageOf_pageOf a) hle hlt

/-- The pages of a reserved block are opened, and the header is written. -/
theorem commit_ends (kmalloc : Word → Nat → Prog Word) (h : Valid g c F s) {h' : Heap}
    (hfrees : Frees h' F' F') (hres : Reserved F F' size palign start got) :
    Ends (commit kmalloc size (start, got)) { s with heap := h' }
      (fun p s' => p = start ∧ Malloced g c F F' size palign start got s s')
      (fun e _ => e = .noFreeFrame) := by
  have hvalid₁ := h.reserve hfrees hres
  rw [commit, Ends.bind_read]
  refine Ends.bind ((openBlock_ends kmalloc h hfrees hres).mono (fun _ _ h => h)
    (fun _ _ h => h.elim)) ?_
  rintro - s₂ ⟨hwork, hmarked, hopened₂⟩
  have hvalid₂ := hvalid₁.work hwork
  have hscr : ∀ a, ScratchPage s₂ a ↔ ScratchPage s a := hwork.scratchPage_iff
  refine Ends.bind (storeHeader_ends hvalid₂ hres hopened₂) ?_
  rintro - s' ⟨htouch₂, hstored, hheader⟩
  have hinside : ∀ a : Word, start.toNat - 8 ≤ a.toNat → a.toNat < start.toNat →
      HeapAddr a ∧ ¬ ScratchPage s₂ a ∧ Opened s₂ (g.slot a) :=
    fun a h₁ h₂ => hopened₂ a h₁ (by omega)
  have htouch : Touch g c g.kernelSlots s₂ s' := by
    refine htouch₂.mono ?_
    rintro _ ⟨a, h₁, h₂, rfl⟩
    exact (hvalid₂.linked.lookup_heap hvalid₂.linked.current (hinside a h₁ h₂).1).2
  have hcur₂ : s₂.currentPageDir = s.currentPageDir := hwork.current_eq
  have hrest : s'.rest = ({ s with heap := h' } : Kernel).rest := htouch.work.rest.trans hwork.rest
  have hedit₂ : ∀ q, Editable g s q → Editable g s₂ q := fun q hq =>
    hwork.steps.editable ⟨hq.counted, hq.ordinary⟩
  refine ⟨rfl, hvalid₂.work htouch.work, hres, ?_, ?_, fun a h₁ h₂ => ?_, fun q hq hopen => ?_,
    fun q hq hne => ?_, fun hc k hk => ?_, fun hc b w hb hscratch hout hcell => ?_⟩
  · have hfirst : Step g c g.kernelSlots s { s with heap := h' } :=
      .other rfl rfl rfl rfl rfl rfl rfl
    exact .head hfirst (hwork.steps.trans htouch.work.steps)
  · have hheap : s'.heap = h' := (congrArg Kernel.heap hrest :)
    rw [hrest, hheap]
  · obtain ⟨hheap, hscratch, hopen⟩ := hopened₂ a h₁ h₂
    exact ⟨hheap, fun hs => hscratch ((htouch.work.scratchPage_iff a).mp hs), hopen.touch htouch
      (hvalid₂.linked.editable_heap hheap hscratch) hvalid₂.linked.code⟩
  · exact (hmarked.opened q hopen).touch htouch (hedit₂ q hq) hvalid₂.linked.code
  · have hq₂ := hedit₂ q hq
    have haddr : (s₂.page q).addr = (s.page q).addr := hmarked.addr q
    rw [← haddr] at hne ⊢
    have hmem : q ∈ g.headerSlots start := by
      by_contra hnot
      exact hne (htouch₂.work.steps.kept hq₂ hnot).addr
    refine ⟨?_, hmem⟩
    obtain ⟨a, h₁, h₂, rfl⟩ := hmem
    by_contra hheld
    exact hne (htouch.fixed _ hq₂ (hinside a h₁ h₂).2.2.2.1 hheld)
  · rw [← hcur₂]
    exact hheader hc k hk
  · have hl₂ := hvalid₂.linked
    have hedit := hl₂.editable_heap hb (fun hs => hscratch ((hscr b).mp hs))
    have hcell₂ : Cell s₂ s₂.currentPageDir b w := by
      rw [hcur₂]
      exact hcell.marked ⟨hmarked.phys, hmarked.addr, hmarked.opened⟩ hwork.dir_eq
    obtain ⟨q, hlook, hheld, -⟩ := id hcell₂
    have hq : q = g.slot b :=
      Option.some.inj (hlook.symm.trans (hl₂.lookup_heap hl₂.current hb).1)
    rw [← hq] at hedit
    have hout' : ∀ k < got.bytes.length, b ≠ start - sizeofBlock + BitVec.ofNat 32 k := by
      rintro k hk rfl
      have hbegin := (reserved_bounds hres).2.2
      rw [toNat_add_ofNat (n := 8) (by rw [reserved_header hres]; omega) hk,
        reserved_header hres] at hout
      change k < 8 at hk
      omega
    have hpeek := hstored.other_addr hc hl₂ ⟨q, hlook, hedit⟩ hout'
      ((cell_iff_peek hlook hheld).mp hcell₂)
    rw [← hcur₂]
    exact (cell_iff_peek (by rw [htouch.work.lookup_eq, hlook])
      (htouch.held q hedit hheld)).mpr hpeek

/-- The first part of `kmalloc`: a block leaves the free trees. -/
theorem onHeap_reserve_ends (h : Valid g c F s)
    (hfits : ∀ b, Chosen F size palign (firstReq size) b → Fits size palign b) :
    Ends (onHeap (reserve size palign loopBound (firstReq size))) s
      (fun r s' => ∃ h' F', Frees h' F' F' ∧ Reserved F F' size palign r.1 r.2 ∧
        Placed F size palign r.1 r.2 ∧ s' = { s with heap := h' })
      (fun e _ => SearchFailed F size palign e) := by
  have htrees := reserve_triple h.heap.proper hfits s.heap h.heap.frees
  refine (onHeap_ends htrees).mono ?_ (fun _ _ h => h)
  rintro r _ ⟨h', ⟨F', hfrees, hres, hplaced⟩, rfl⟩
  exact ⟨h', F', hfrees, hres, hplaced, rfl⟩

/-- `kmalloc`, where its test means that the request fits. -/
theorem kmallocWith_placed (kmalloc : Word → Nat → Prog Word) (h : Valid g c F s)
    (hfits : ∀ b, Chosen F size palign (firstReq size) b → Fits size palign b) :
    Ends (kmallocWith kmalloc size palign) s
      (fun start s' => ∃ F' got, Malloced g c F F' size palign start got s s' ∧
        Placed F size palign start got)
      (fun e _ => SearchFailed F size palign e ∨
        e = .noFreeFrame ∧ ∃ b, Chosen F size palign (firstReq size) b) := by
  rw [Ends, kmallocWith_eq kmalloc h.linked.heapReady, ← Ends]
  refine Ends.bind ((onHeap_reserve_ends h hfits).mono (fun _ _ h => h) fun _ _ h => .inl h) ?_
  rintro ⟨start, got⟩ s₁ ⟨h', F', hfrees, hres, hplaced, rfl⟩
  refine (commit_ends kmalloc h hfrees hres).mono ?_ ?_
  · rintro _ s' ⟨rfl, hm⟩
    exact ⟨F', got, hm, hplaced⟩
  · rintro e s' rfl
    obtain ⟨b, hchosen, -⟩ := hplaced
    exact .inr ⟨rfl, b, hchosen⟩

/-- Where no sum wraps, the chosen block has room for the request. -/
theorem Valid.chosen_fits (h : Valid g c F s) (hsize : size.toNat + 8 < 2 ^ 32)
    (hpalign : palign ≤ 22) {b : Block} (hb : Chosen F size palign (firstReq size) b) :
    Fits size palign b :=
  (accepts_iff_fits (h.heap.proper b hb.mem) hsize hpalign).mp ⟨hb.not_lt, hb.accepts⟩

theorem kmallocWith_ends (kmalloc : Word → Nat → Prog Word) (h : Valid g c F s)
    (hsize : size.toNat + 8 < 2 ^ 32) (hpalign : palign ≤ 22) :
    Ends (kmallocWith kmalloc size palign) s
      (fun start s' => ∃ F' got, Malloced g c F F' size palign start got s s')
      (fun e _ => e.Exhausted) := by
  refine (kmallocWith_placed kmalloc h fun b hb => h.chosen_fits hsize hpalign hb).mono ?_ ?_
  · rintro start s' ⟨F', got, hm, -⟩
    exact ⟨F', got, hm⟩
  · rintro e s' ((⟨rfl, -⟩ | ⟨rfl, -⟩) | ⟨rfl, -⟩)
    · exact trivial
    · exact trivial
    · exact trivial

theorem kmalloc_placed (h : Valid g c F s)
    (hfits : ∀ b, Chosen F size palign (firstReq size) b → Fits size palign b) :
    Ends (kmalloc size palign) s
      (fun start s' => ∃ F' got, Malloced g c F F' size palign start got s s' ∧
        Placed F size palign start got)
      (fun e _ => SearchFailed F size palign e ∨
        e = .noFreeFrame ∧ ∃ b, Chosen F size palign (firstReq size) b) :=
  kmallocWith_placed _ h hfits

theorem kmalloc_ends (h : Valid g c F s) (hsize : size.toNat + 8 < 2 ^ 32)
    (hpalign : palign ≤ 22) :
    Ends (kmalloc size palign) s
      (fun start s' => ∃ F' got, Malloced g c F F' size palign start got s s')
      (fun e _ => e.Exhausted) :=
  kmallocWith_ends _ h hsize hpalign

end Jkos.Page
