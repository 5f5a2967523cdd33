import Jkos.Kheap.Owned

/-!
# What the kernel allocates for itself

Page tables and directories live in the kernel heap. `Grown` relates the states before
and after the kernel has taken blocks for such objects: frames of the heap stay where they
are, open pages stay open, and no byte changes that was not free before. It composes, and
every function that makes tables is described by it.
-/

namespace Jkos.Page

open Exec Kheap

variable {g : Layout} {c : Prop} {K : Set Slot} {s s' s'' : Kernel} {p q : Slot}
  {F F' F'' : Multiset Block}

/-- A byte of a heap page that has a frame. -/
def HeapCell (g : Layout) (s : Kernel) (b : Word) (w : Byte) : Prop :=
  (s.page (g.slot b)).addr ≠ 0 ∧ s.phys (s.page (g.slot b)).addr (pageOffset b) = w

theorem Linked.cell_iff (h : Linked g s) {b : Word} {w : Byte} (hb : HeapAddr b) :
    Cell s s.currentPageDir b w ↔ HeapCell g s b w := by
  have hlook := (h.lookup_heap h.current hb).1
  constructor
  · rintro ⟨q, hq, hheld, hw⟩
    obtain rfl : q = g.slot b := Option.some.inj (hq.symm.trans hlook)
    exact ⟨hheld, hw⟩
  · rintro ⟨hheld, hw⟩
    exact ⟨_, hlook, hheld, hw⟩

/-- What stays as it is while one directory is in use. -/
structure SameEnv (s s' : Kernel) : Prop where
  current : s'.currentPageDir = s.currentPageDir
  empty0Addr : s'.emptyPage0Addr = s.emptyPage0Addr
  empty1Addr : s'.emptyPage1Addr = s.emptyPage1Addr
  empty0 : s'.emptyPage0 = s.emptyPage0
  empty1 : s'.emptyPage1 = s.emptyPage1
  codeEnd : s'.kernelCodeEnd = s.kernelCodeEnd
  staticEnd : s'.kheapStaticEnd = s.kheapStaticEnd
  low : s'.kernelLowNtable = s.kernelLowNtable

namespace SameEnv

theorem refl : SameEnv s s := ⟨rfl, rfl, rfl, rfl, rfl, rfl, rfl, rfl⟩

theorem trans (h : SameEnv s s') (h' : SameEnv s' s'') : SameEnv s s'' :=
  ⟨h'.current.trans h.current, h'.empty0Addr.trans h.empty0Addr,
    h'.empty1Addr.trans h.empty1Addr, h'.empty0.trans h.empty0, h'.empty1.trans h.empty1,
    h'.codeEnd.trans h.codeEnd, h'.staticEnd.trans h.staticEnd, h'.low.trans h.low⟩

theorem of_rest (h : s'.rest = ({ s with heap := s'.heap } : Kernel).rest) : SameEnv s s' :=
  ⟨(congrArg Kernel.currentPageDir h :), (congrArg Kernel.emptyPage0Addr h :),
    (congrArg Kernel.emptyPage1Addr h :), (congrArg Kernel.emptyPage0 h :),
    (congrArg Kernel.emptyPage1 h :), (congrArg Kernel.kernelCodeEnd h :),
    (congrArg Kernel.kheapStaticEnd h :), (congrArg Kernel.kernelLowNtable h :)⟩

theorem scratchPage_iff (h : SameEnv s s') (a : Word) : ScratchPage s' a ↔ ScratchPage s a := by
  rw [ScratchPage, ScratchPage, h.empty0Addr, h.empty1Addr]

end SameEnv

theorem Work.env (h : Work g c K s s') : SameEnv s s' := by
  apply SameEnv.of_rest
  have hheap : s'.heap = s.heap := (congrArg Kernel.heap h.rest :)
  rw [h.rest, hheap]

/-- The entries of the tables of the kernel and of tables that do not exist yet. -/
def Layout.fresh (g : Layout) (s : Kernel) : Set Slot :=
  {p | p.table ∈ g.kernel ∨ p.table ∉ s.tables}

theorem Layout.kernelSlots_subset (g : Layout) (s : Kernel) : g.kernelSlots ⊆ g.fresh s :=
  fun _ hp => .inl hp

theorem Layout.fresh_anti (h : s.tables ⊆ s'.tables) : g.fresh s' ⊆ g.fresh s :=
  fun _ hp => hp.imp_right fun hnot hmem => hnot (h hmem)

/-- The kernel has taken free blocks for its own objects. -/
structure Grown (g : Layout) (c : Prop) (F F' : Multiset Block) (s s' : Kernel) : Prop where
  valid : Valid g c F' s'
  env : SameEnv s s'
  tables : s.tables ⊆ s'.tables
  newTables : ∀ t ∈ s'.tables, t ∈ s.tables ∨ 0 < depthOf F t.toNat
  newDirs : ∀ d ∈ s'.dirs, d ∈ s.dirs ∨
    ∀ k < sizeofDirectory.toNat, 0 < depthOf F (d.toNat + k)
  steps : Steps g c (g.fresh s) s s'
  took : ∃ B : Multiset Block, ∀ x, depthOf F x = depthOf F' x + depthOf B x
  separate : Separate F → Separate F'
  opened : ∀ q, q.table ∈ g.kernel → Editable g s q → Opened s q → Opened s' q
  fixed : ∀ q, q.table ∈ g.kernel → Editable g s q → (s.page q).addr ≠ 0 →
    (s'.page q).addr = (s.page q).addr
  cells : c → ∀ b w, HeapAddr b → ¬ ScratchPage s b → depthOf F b.toNat = 0 →
    HeapCell g s b w → HeapCell g s' b w

@[simp] theorem depthOf_zero (x : Nat) : depthOf 0 x = 0 := rfl

@[simp] theorem depthOf_add (A B : Multiset Block) (x : Nat) :
    depthOf (A + B) x = depthOf A x + depthOf B x := by
  simp [depthOf]

namespace Grown

theorem refl (h : Valid g c F s) : Grown g c F F s s :=
  ⟨h, .refl, fun _ h => h, fun _ ht => .inl ht, fun _ hd => .inl hd, .refl, ⟨0, fun x => by simp⟩,
    id, fun _ _ _ h => h, fun _ _ _ _ => rfl,
    fun _ _ _ _ _ _ h => h⟩

theorem le (h : Grown g c F F' s s') (x : Nat) : depthOf F' x ≤ depthOf F x := by
  obtain ⟨B, hB⟩ := h.took
  rw [hB]
  omega

theorem trans (h : Grown g c F F' s s') (h' : Grown g c F' F'' s' s'') :
    Grown g c F F'' s s'' := by
  obtain ⟨B, hB⟩ := h.took
  obtain ⟨B', hB'⟩ := h'.took
  refine ⟨h'.valid, h.env.trans h'.env, fun _ ht => h'.tables (h.tables ht), fun t ht => ?_,
    fun d hd => ?_, h.steps.trans (h'.steps.mono (Layout.fresh_anti h.tables)),
    ⟨B + B', fun x => ?_⟩,
    fun hsep => h'.separate (h.separate hsep), fun q hk hq hopen => ?_, fun q hk hq hheld => ?_,
    fun hc b w hb hscratch hzero hcell => ?_⟩
  · obtain ht | hpos := h'.newTables t ht
    · exact h.newTables t ht
    · exact .inr (hpos.trans_le (h.le _))
  · obtain hd | hpos := h'.newDirs d hd
    · exact h.newDirs d hd
    · exact .inr fun k hk => (hpos k hk).trans_le (h.le _)
  · rw [hB, hB', depthOf_add]
    omega
  · exact h'.opened q hk (h.steps.editable hq) (h.opened q hk hq hopen)
  · have hsame := h.fixed q hk hq hheld
    rw [h'.fixed q hk (h.steps.editable hq) (by rw [hsame]; exact hheld), hsame]
  · refine h'.cells hc b w hb (fun hs => hscratch ((h.env.scratchPage_iff b).mp hs)) ?_
      (h.cells hc b w hb hscratch hzero hcell)
    have := h.le b.toNat
    omega

end Grown

/-- `kmalloc` for an object of the kernel. -/
theorem Malloced.grown {size start : Word} {palign : Nat} {got : Block}
    (hm : Malloced g c F F' size palign start got s s') (h : Valid g c F s) :
    Grown g c F F' s s' := by
  have htables : s'.tables = s.tables := (congrArg Kernel.tables hm.rest :)
  have hdirs : s'.dirs = s.dirs := (congrArg Kernel.dirs hm.rest :)
  have hcur : s'.currentPageDir = s.currentPageDir := (congrArg Kernel.currentPageDir hm.rest :)
  refine ⟨hm.valid, .of_rest hm.rest, htables ▸ fun _ h => h, fun t ht => .inl (htables ▸ ht),
    fun d hd => .inl (hdirs ▸ hd), hm.steps.mono (Layout.kernelSlots_subset g s), ⟨{got}, fun x => ?_⟩,
    hm.reserved.separate h.heap.proper h.heap.once, fun q _ hq hopen => hm.kept q hq hopen,
    fun q _ hq hheld => ?_, fun hc b w hb hscratch hzero hcell => ?_⟩
  · rw [hm.reserved.depth, depthOf_singleton]
  · by_contra hne
    exact hheld (hm.frames q hq hne).1
  · rw [← hm.valid.linked.cell_iff hb, hcur]
    refine hm.other hc b w hb hscratch ?_ ((h.linked.cell_iff hb).mpr hcell)
    by_contra hin
    rw [not_or, Nat.not_lt, Nat.not_le] at hin
    have hhead := hm.reserved.header
    have hpay := hm.reserved.payload
    rw [hm.reserved.depth, Cover.Span.at_of_mem (a := got.span)
      (by simp only [Block.span]; omega)] at hzero
    omega

/-! ## Clearing new memory -/

/-- The entries of the pages of a range. -/
def Layout.rangeSlots (g : Layout) (start : Word) (n : Nat) : Set Slot :=
  {q | ∃ a : Word, start.toNat ≤ a.toNat ∧ a.toNat < start.toNat + n ∧ q = g.slot a}

/-- A range of the heap that the kernel may use. -/
def OpenRange (g : Layout) (s : Kernel) (start : Word) (n : Nat) : Prop :=
  ∀ a : Word, start.toNat ≤ a.toNat → a.toNat < start.toNat + n →
    HeapAddr a ∧ ¬ ScratchPage s a ∧ Opened s (g.slot a)

/-- The pages of the range have frames, and no other byte of the heap has changed. -/
structure Zeroed (g : Layout) (c : Prop) (start : Word) (n : Nat) (s s' : Kernel) : Prop where
  touch : Touch g c (g.rangeSlots start n) s s'
  held : ∀ a : Word, start.toNat ≤ a.toNat → a.toNat < start.toNat + n →
    (s'.page (g.slot a)).addr ≠ 0
  other : c → ∀ b w, HeapAddr b → ¬ ScratchPage s b →
    b.toNat < start.toNat ∨ start.toNat + n ≤ b.toNat → HeapCell g s b w → HeapCell g s' b w

theorem memset_ends {start : Word} {n : Nat} (hs : Sound g c s) (hl : Linked g s)
    (hfits : start.toNat + n ≤ 2 ^ 32) (hopen : OpenRange g s start n) (val : Byte) :
    Ends (memset start val n) s (fun _ s' => Zeroed g c start n s s')
      (fun e _ => e = .noFreeFrame) := by
  have haddr : ∀ k < n, (start + BitVec.ofNat 32 k).toNat = start.toNat + k := fun k hk =>
    toNat_add_ofNat hfits hk
  have hin : ∀ k < n, HeapAddr (start + BitVec.ofNat 32 k) ∧
      ¬ ScratchPage s (start + BitVec.ofNat 32 k) ∧
      Opened s (g.slot (start + BitVec.ofNat 32 k)) := fun k hk =>
    hopen _ (by rw [haddr k hk]; omega) (by rw [haddr k hk]; omega)
  have hlook : ∀ k < n, lookup s s.currentPageDir (start + BitVec.ofNat 32 k) =
      some (g.slot (start + BitVec.ofNat 32 k)) := fun k hk =>
    (hl.lookup_heap hl.current (hin k hk).1).1
  have hlen : (List.replicate n val).length = n := List.length_replicate
  rw [memset_eq_store]
  refine (store_ends (K := g.rangeSlots start n) (fun k hk q hq => ?_) hs hl (by rw [hlen]; omega)
    (fun k hk => ?_)).mono ?_ (fun _ _ h => h)
  · rw [hlen] at hk
    rw [hlook k hk] at hq
    exact ⟨_, by rw [haddr k hk]; omega, by rw [haddr k hk]; omega, (Option.some.inj hq).symm⟩
  · rw [hlen] at hk
    obtain ⟨hheap, hscratch, hopen'⟩ := hin k hk
    exact ⟨_, hlook k hk, hl.editable_heap hheap hscratch,
      hopen'.granted (kernelEip_lt hl.code) true, hopen'.copyable⟩
  · rintro - s' ⟨htouch, hstored⟩
    refine ⟨htouch, fun a h₁ h₂ => ?_, fun hc b w hb hscratch hout hcell => ?_⟩
    · have hk : a.toNat - start.toNat < n := by omega
      have he : start + BitVec.ofNat 32 (a.toNat - start.toNat) = a := by
        apply Word.ext_toNat
        rw [haddr _ hk]
        omega
      have := hstored.held (a.toNat - start.toNat) (by rw [hlen]; exact hk) _ (hlook _ hk)
      rwa [he] at this
    · have hlookb := (hl.lookup_heap hl.current hb).1
      have hedit := hl.editable_heap hb hscratch
      have hl' := hl.congr htouch.work.rest
      have hpeek := hstored.other_addr hc hl ⟨_, hlookb, hedit⟩ (fun k hk => ?_)
        ((cell_iff_peek hlookb hcell.1).mp ((hl.cell_iff hb).mpr hcell))
      · rw [← hl'.cell_iff hb, htouch.work.current_eq]
        exact (cell_iff_peek (by rw [htouch.work.lookup_eq, hlookb])
          (htouch.held _ hedit hcell.1)).mpr hpeek
      · rw [hlen] at hk
        rintro rfl
        rw [haddr k hk] at hout
        omega

/-- Clearing a block that was free before. -/
theorem Grown.zeroed {start : Word} {n : Nat} (h : Grown g c F F' s s')
    (hz : Zeroed g c start n s' s'') (hopen : OpenRange g s' start n)
    (hfree : ∀ x, start.toNat ≤ x → x < start.toNat + n → 0 < depthOf F x) :
    Grown g c F F' s s'' := by
  have hkernel : g.rangeSlots start n ⊆ g.kernelSlots := by
    rintro _ ⟨a, h₁, h₂, rfl⟩
    exact (h.valid.linked.lookup_heap h.valid.linked.current (hopen a h₁ h₂).1).2
  have htables := hz.touch.work.tables_eq
  have hdirs := hz.touch.work.dirs_eq
  refine ⟨h.valid.work hz.touch.work, h.env.trans hz.touch.work.env, htables ▸ h.tables,
    htables ▸ h.newTables, hdirs ▸ h.newDirs,
    h.steps.trans (hz.touch.work.steps.mono (hkernel.trans (Layout.kernelSlots_subset g s))),
    h.took, h.separate, fun q hk hq hopenq => ?_, fun q hk hq hheld => ?_,
    fun hc b w hb hscratch hzero hcell => ?_⟩
  · exact (h.opened q hk hq hopenq).touch hz.touch (h.steps.editable hq) h.valid.linked.code
  · have hsame := h.fixed q hk hq hheld
    have hq' := h.steps.editable hq
    by_cases hmem : q ∈ g.rangeSlots start n
    · obtain ⟨a, h₁, h₂, rfl⟩ := hmem
      rw [hz.touch.fixed _ hq' (hopen a h₁ h₂).2.2.2.1 (by rw [hsame]; exact hheld), hsame]
    · rw [(hz.touch.work.steps.kept hq' hmem).addr, hsame]
  · refine hz.other hc b w hb (fun hs => hscratch ((h.env.scratchPage_iff b).mp hs)) ?_
      (h.cells hc b w hb hscratch hzero hcell)
    by_contra hin
    have := hfree b.toNat (by omega) (by omega)
    omega

/-! ## The owners of the heap -/

variable {live : Multiset Chunk} {own : Multiset Block} {x : Chunk} {b : Block}

/-- What the kernel takes for itself leaves the live pointers alone. -/
theorem Live.grown (h : Live g s x b) (hg : Grown g True F F' s s') (hs : Valid g True F s)
    (hfree : ∀ a, b.start.toNat ≤ a → a < b.stop → depthOf F a = 0) : Live g s' x b := by
  have hl := hs.linked
  refine ⟨h.proper, h.header, h.payload, fun a h₁ h₂ => ?_, fun k hk => ?_⟩
  · obtain ⟨hscratch, hopen⟩ := h.opened a h₁ h₂
    obtain ⟨hheap, -⟩ := h.heapAddr h₁ h₂
    exact ⟨fun hscr => hscratch ((hg.env.scratchPage_iff a).mp hscr),
      hg.opened _ (hl.lookup_heap hl.current hheap).2 (hl.editable_heap hheap hscratch) hopen⟩
  · have hnat := h.toNat_header (k := k) hk
    have hhead := h.header
    change k < 8 at hk
    have hin : x.ptr.toNat - 8 ≤ (x.ptr - 8 + BitVec.ofNat 32 k).toNat := by omega
    have hin' : (x.ptr - 8 + BitVec.ofNat 32 k).toNat < x.ptr.toNat + x.size.toNat := by omega
    obtain ⟨hheap, hlo, hhi⟩ := h.heapAddr hin hin'
    rw [hg.valid.linked.cell_iff hheap]
    exact hg.cells trivial _ _ hheap (h.opened _ hin hin').1 (hfree _ hlo hhi)
      ((hl.cell_iff hheap).mp (h.cells k hk))

theorem Owned.grown (h : Owned g F live own s) (hg : Grown g True F F' s s') :
    ∃ own', Owned g F' live own' s' := by
  obtain ⟨B, hB⟩ := hg.took
  have hlive : ∀ x ∈ live, Live g s' x (recorded s x.ptr) := fun x hx => by
    refine (h.chunks x hx).grown hg h.valid fun a h₁ h₂ => ?_
    have hpos := depthOf_pos_of_mem (F := blocks s live) (Multiset.mem_map_of_mem _ hx) h₁ h₂
    have := h.depth_le_one a
    omega
  have hold := blocks_congr hg.valid.sound hg.valid.linked hlive
  have hnone : ∀ a, 0 < depthOf F a → depthOf (blocks s live) a = 0 := fun a hpos => by
    have := h.depth_le_one a
    omega
  refine ⟨own + B, hg.valid, hg.separate h.separate, fun x hx => ?_, fun a => ?_, ?_⟩
  · rw [(hlive x hx).recorded_eq hg.valid.sound hg.valid.linked]
    exact hlive x hx
  · have := h.tiles a
    rw [hold, depthOf_add, ← this, hB]
    omega
  · rw [hold]
    refine ⟨fun t ht => ?_, fun d hd k hk => ?_, fun a ha => ?_⟩
    · obtain ht | hpos := hg.newTables t ht
      · exact h.clear.tables t ht
      · exact hnone _ hpos
    · obtain hd | hpos := hg.newDirs d hd
      · exact h.clear.dirs d hd k hk
      · exact hnone _ (hpos k hk)
    · exact h.clear.scratch a ((hg.env.scratchPage_iff a).mp ha)

end Jkos.Page
