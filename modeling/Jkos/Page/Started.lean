import Jkos.Kheap.Boot
import Jkos.Page.Agree

/-!
# The end of `Page::init`

The last thing that `Page::init` does is to take two pages of the heap as scratch pages.
From then on pages can be filled and copied, and tables and directories can be made.
-/

namespace Jkos.Page

open Exec Kheap

/-- The scratch pages: `empty_page0_addr` and `empty_page1_addr` with their entries. -/
def initEmptyPages : Prog Unit := do
  let addr ← kmalloc 0x2000 12
  modify ({ · with emptyPage0Addr := addr, emptyPage1Addr := addr + 0x1000 })
  let d ← read (·.currentPageDir)
  match ← read (lookup · d addr) with
  | none => throw .assertion
  | some p =>
    modify ({ · with emptyPage0 := p })
    match ← read (lookup · d (addr + 0x1000)) with
    | none => throw .assertion
    | some q =>
      modify ({ · with emptyPage1 := q })
      modify (·.setEntry p ({ · with present := true }))
      modify (·.setEntry q ({ · with present := true }))

variable {g : Layout} {c : Prop} {K : Set Slot} {s s' s'' : Kernel} {p q : Slot}
  {F F' : Multiset Block} {a : Word}

/-! ## New scratch pages -/

/-- The kernel with the scratch pages at `a`. -/
def withScratch (s : Kernel) (a : Word) (p q : Slot) : Kernel :=
  { s with emptyPage0Addr := a, emptyPage1Addr := a + 0x1000, emptyPage0 := p, emptyPage1 := q }

/-- Scratch pages take no frame from anybody. -/
theorem Sound.withScratch (h : Sound g c s)
    (hold : ∀ r : Slot, r.table ∈ s.tables → r ≠ s.emptyPage0 ∧ r ≠ s.emptyPage1)
    (hp : (s.page p).addr = 0 ∧ p ∉ g.identity) (hq : (s.page q).addr = 0 ∧ q ∉ g.identity) :
    Sound g c (withScratch s a p q) := by
  have hcounted : ∀ r, Counted (Page.withScratch s a p q) r → Counted s r :=
    fun r hr => ⟨hr.1, hold r hr.1⟩
  have hholders : ∀ f ≠ 0, holders (Page.withScratch s a p q) f = holders s f := by
    intro f hf
    ext r
    refine ⟨fun hr => ⟨hcounted r hr.1, hr.2⟩, fun hr => ⟨⟨hr.1.1, ?_, ?_⟩, hr.2⟩⟩
    · rintro rfl
      exact hf (hr.2.symm.trans hp.1)
    · rintro rfl
      exact hf (hr.2.symm.trans hq.1)
  have hzero : ∀ f ∈ g.managed, f ≠ 0 := fun f hf e => h.frames.zero (e ▸ hf)
  have hedit : ∀ r, Editable g (Page.withScratch s a p q) r → Editable g s r :=
    fun r hr => ⟨hcounted r hr.counted, hr.ordinary⟩
  refine ⟨⟨h.frames.nodup, h.frames.free, h.frames.zero, h.frames.aligned,
    fun r hr => h.frames.entry r (hcounted r hr), h.frames.identity, fun f hf => ?_,
    fun f hf hnot => ?_, hp.2, hq.2⟩, fun r hr => h.shaped r (hedit r hr),
    fun hc r hr => h.exclusive hc r (hedit r hr)⟩
  · rw [hholders f (hzero f (h.frames.free f hf))]
    exact h.frames.onStack f hf
  · rw [hholders f (hzero f hf)]
    exact h.frames.offStack f hf hnot

/-- The flags of a scratch page matter to no other page. -/
theorem Sound.setScratch (h : Sound g c s) (hp : p = s.emptyPage0 ∨ p = s.emptyPage1)
    {m : TableEntry → TableEntry} (hm : (m (s.page p)).addr = (s.page p).addr) :
    Sound g c (s.setEntry p m) := by
  have hid : p ∉ g.identity := by
    rcases hp with rfl | rfl
    · exact h.frames.apart0
    · exact h.frames.apart1
  have hne : ∀ r, Editable g s r → r ≠ p := by
    rintro r hr rfl
    rcases hp with e | e
    · exact hr.counted.2.1 e
    · exact hr.counted.2.2 e
  refine ⟨h.frames.setFlags hm fun hmem => absurd hmem hid, fun r hr => ?_, fun hc r hr hheld => ?_⟩
  · rw [Kernel.page_setEntry_of_ne _ _ (hne r ⟨hr.counted, hr.ordinary⟩)]
    exact h.shaped r ⟨hr.counted, hr.ordinary⟩
  · have hr' : Editable g s r := ⟨hr.counted, hr.ordinary⟩
    rw [Kernel.page_setEntry_of_ne _ _ (hne r hr')] at hheld ⊢
    exact h.exclusive hc r hr' hheld

/-! ## The boot directory -/

/-- An address of static memory is mapped to itself. -/
theorem Booted.backed (h : Booted g s) {a : Word} (hlo : 0x1000 ≤ a.toNat)
    (hhi : a.toNat < s.kheapStaticEnd.toNat) : Backed g s a ((a >>> 12).setWidth 20) := by
  have hpage : IdentityPage s a := by
    refine ⟨hlo, ?_⟩
    rw [toNat_pageOf]
    omega
  obtain ⟨hid, hpresent, haddr⟩ := h.identity a hpage
  have hend := h.staticEnd
  refine ⟨haddr, fun e => ?_, .inr ⟨.inl ?_, hid, hpresent⟩⟩
  · have := congrArg BitVec.toNat e
    have hlt := a.isLt
    rw [BitVec.toNat_setWidth, BitVec.toNat_ushiftRight, Nat.shiftRight_eq_div_pow] at this
    change a.toNat / 2 ^ 12 % 2 ^ 20 = 0 at this
    omega
  · rw [toNat_tbIdx]
    omega

/-- The physical address of static memory. -/
theorem frameAddr_or_offset (a : Word) :
    frameAddr ((a >>> 12).setWidth 20) ||| (a &&& 0xFFF) = a := by
  have hmask : ∀ i : Fin 32, (0xFFF : Word)[i] = decide (i.val < 12) := by decide
  ext i hi
  have hm := hmask ⟨i, hi⟩
  simp only [Fin.getElem_fin] at hm
  rw [BitVec.getElem_or, BitVec.getElem_and, hm, frameAddr, BitVec.getElem_shiftLeft]
  by_cases h : i < 12
  · simp [h]
  · have hle : 12 ≤ i := Nat.not_lt.mp h
    simp [h, BitVec.getElem_setWidth, Nat.add_sub_cancel' hle, BitVec.getLsbD_eq_getElem hi]
    omega

theorem Booted.coherent (h : Booted g s) : Coherent g s := by
  have hcur : ∀ d ∈ s.dirs, d = s.currentPageDir := fun d hd => by
    rw [h.dirs] at hd
    exact List.mem_singleton.mp hd
  have hstatic : ∀ t ∈ s.tables, Backed g s t ((t >>> 12).setWidth 20) := fun t ht => by
    obtain ⟨hlo, hhi⟩ := h.tablesStatic t ht
    exact h.backed hlo (by omega)
  refine ⟨fun d hd => ⟨fun i => ?_, fun i hi => ?_⟩, fun d hd => ?_⟩
  · rw [hcur d hd, h.entries]
    split
    · next hnull => exact ⟨fun e => absurd e (by decide), fun e => absurd hnull e⟩
    · next hne => exact ⟨fun _ => hne, fun _ => rfl⟩
  · rw [hcur d hd] at hi ⊢
    have hmem : (s.dir s.currentPageDir).tables i ∈ s.tables := by
      by_cases hshared : g.Shared i
      · rw [h.linked.shared _ h.linked.current i hshared]
        exact (h.linked.kernel i hshared).1
      · exact absurd (h.user i hshared) hi
    rw [h.entries, if_neg hi]
    exact hstatic _ hmem
  · obtain ⟨hlo, hhi⟩ := h.dirStatic
    rw [← hcur d hd] at hlo hhi
    have hsize := s.kheapStaticEnd.isLt
    have hnat : (d + 4096).toNat = d.toNat + 4096 := by
      rw [BitVec.toNat_add]
      exact Nat.mod_eq_of_lt (by change d.toNat + 4096 < 2 ^ 32; omega)
    refine ⟨_, h.backed (by omega) (by omega), ?_⟩
    rw [frameAddr_or_offset, hcur d hd]
    exact h.phyaddr

/-! ## After `Page::init` -/

/-- What holds when `Page::init` returns and stays true: the owners of the heap, the
scratch pages, and the agreement about directories. -/
structure Started (g : Layout) (live : Multiset Chunk) (s : Kernel) : Prop where
  owned : ∃ F own, Owned g F live own s
  scratched : Scratched s
  coherent : Coherent g s

/-- The kernel after `initEmptyPages` has taken the pages at `a`. -/
def emptyPagesAt (g : Layout) (s : Kernel) (a : Word) : Kernel :=
  ((withScratch s a (g.slot a) (g.slot (a + 0x1000))).setEntry (g.slot a)
    ({ · with present := true })).setEntry (g.slot (a + 0x1000)) ({ · with present := true })

theorem initEmptyPages_apply (hl : Linked g s') (ha : HeapAddr a) (ha' : HeapAddr (a + 0x1000))
    (hrun : kmalloc 0x2000 12 s = (.ok a, s')) :
    initEmptyPages s = (.ok (), emptyPagesAt g s' a) := by
  have h0 := (hl.lookup_heap hl.current ha).1
  have h1 := (hl.lookup_heap hl.current ha').1
  have h0' : lookup { s' with emptyPage0Addr := a, emptyPage1Addr := a + 0x1000 }
      s'.currentPageDir a = some (g.slot a) := h0
  have h1' : lookup { s' with emptyPage0Addr := a, emptyPage1Addr := a + 0x1000, emptyPage0 := g.slot a }
      s'.currentPageDir (a + 0x1000) = some (g.slot (a + 0x1000)) := h1
  rw [initEmptyPages, bind_ok hrun]
  simp only [bind_apply, modify_apply, read_apply, h0', h1']
  rfl

theorem page_emptyPagesAt (hne : q ≠ g.slot a) (hne' : q ≠ g.slot (a + 0x1000)) :
    (emptyPagesAt g s a).page q = s.page q := by
  rw [emptyPagesAt, Kernel.page_setEntry_of_ne _ _ hne', Kernel.page_setEntry_of_ne _ _ hne]
  rfl

section EmptyPages

variable {got : Block} (hb : Booted g s) (hm : Malloced g True F F' 0x2000 12 a got s s')
include hb hm

omit hb in
/-- The pages and their addresses. -/
theorem emptyPages_facts : HeapAddr a ∧ HeapAddr (a + 0x1000) ∧ pageOf a = a ∧
    pageOf (a + 0x1000) = a + 0x1000 ∧ (a + 0x1000).toNat = a.toNat + 4096 := by
  obtain ⟨hlo, hhi⟩ := hm.heapAddr
  have hdvd : 4096 ∣ a.toNat := hm.reserved.aligned
  rw [show (0x2000 : Word).toNat = 8192 from rfl] at hhi
  have hnat : (a + 0x1000).toNat = a.toNat + 4096 := by
    rw [BitVec.toNat_add]
    exact Nat.mod_eq_of_lt (by change a.toNat + 4096 < 2 ^ 32; omega)
  refine ⟨⟨hlo, by omega⟩, ⟨by omega, by omega⟩, Word.ext_toNat ?_, Word.ext_toNat ?_, hnat⟩
  · rw [toNat_pageOf]
    omega
  · rw [toNat_pageOf, hnat]
    omega

/-- Neither page has a frame: the header of the block lies before them. -/
theorem emptyPages_free {b : Word} (hlo : a.toNat ≤ b.toNat) (hhi : b.toNat < a.toNat + 0x2000) :
    (s'.page (g.slot b)).addr = 0 ∧ Opened s' (g.slot b) := by
  obtain ⟨hheap, hscratch, hopen⟩ := hm.openRange b hlo hhi
  obtain ⟨-, -, halign, -⟩ := emptyPages_facts hm
  refine ⟨?_, hopen⟩
  rw [← hb.unmapped b hheap]
  by_contra hne
  have henv := (SameEnv.of_rest hm.rest).scratchPage_iff b
  have hedit := hb.linked.editable_heap hheap fun hs => hscratch (henv.mpr hs)
  obtain ⟨-, e, h₁, h₂, he⟩ := hm.frames _ hedit hne
  have hbounds := hm.heapAddr
  have hpage := hb.linked.slot_inj (Linked.shared_of_heap hheap)
    (Linked.shared_of_heap (a := e) ⟨by
      have := hm.reserved.header
      have := hm.reserved.kept.lo
      omega, by omega⟩) he
  have hpage' := congrArg BitVec.toNat hpage
  have halign' := congrArg BitVec.toNat halign
  rw [toNat_pageOf] at halign'
  rw [toNat_pageOf, toNat_pageOf] at hpage'
  omega

theorem emptyPages_ne : g.slot a ≠ g.slot (a + 0x1000) := by
  obtain ⟨h0, h1, hp0, hp1, hnat⟩ := emptyPages_facts hm
  intro e
  have hpage := hb.linked.slot_inj (Linked.shared_of_heap h0) (Linked.shared_of_heap h1) e
  rw [hp0, hp1] at hpage
  have := congrArg BitVec.toNat hpage
  omega

/-- Before, no entry is that of a scratch page. -/
theorem emptyPages_old (r : Slot) (hr : r.table ∈ s'.tables) :
    r ≠ s'.emptyPage0 ∧ r ≠ s'.emptyPage1 := by
  have henv := SameEnv.of_rest hm.rest
  have hnot : ∀ {b : Word}, b = null → ¬ HeapAddr b := by
    rintro b rfl hheap
    exact absurd hheap.1 (by decide)
  have hl := hm.valid.linked
  constructor
  · rintro rfl
    exact hnot (henv.empty0Addr.trans hb.scratch.1) (hl.scratch0 hr).2.1
  · rintro rfl
    exact hnot (henv.empty1Addr.trans hb.scratch.2) (hl.scratch1 hr).2.1

theorem emptyPages_sound : Sound g True (emptyPagesAt g s' a) := by
  obtain ⟨h0, h1, -, -, hnat⟩ := emptyPages_facts hm
  have hl := hm.valid.linked
  have hzero0 := (emptyPages_free hb hm (Nat.le_refl a.toNat) (by omega)).1
  have hzero1 := (emptyPages_free hb hm (b := a + 0x1000) (by omega) (by omega)).1
  have hfirst := hm.valid.sound.withScratch (a := a) (emptyPages_old hb hm)
    ⟨hzero0, hl.slot_notMem_identity h0⟩ ⟨hzero1, hl.slot_notMem_identity h1⟩
  have hsecond := hfirst.setScratch (p := g.slot a) (m := ({ · with present := true })) (.inl rfl) rfl
  exact hsecond.setScratch (.inr rfl) rfl

omit hb in
theorem emptyPages_linked : Linked g (emptyPagesAt g s' a) := by
  obtain ⟨h0, h1, hp0, hp1, -⟩ := emptyPages_facts hm
  have hl := hm.valid.linked
  exact ⟨hl.finished, hl.heapReady, hl.code, hl.low, hl.lowLe, hl.current, hl.kernel, hl.inj,
    hl.shared, ⟨hl.owned.own, hl.owned.unique⟩, hl.identity, fun _ => ⟨rfl, h0, hp0⟩,
    fun _ => ⟨rfl, h1, hp1⟩⟩

omit hb in
/-- The scratch pages are exactly the block. -/
theorem emptyPages_range {x : Word} (hx : ScratchPage (emptyPagesAt g s' a) x) :
    a.toNat ≤ x.toNat ∧ x.toNat < a.toNat + (0x2000 : Word).toNat := by
  obtain ⟨-, -, -, -, hnat⟩ := emptyPages_facts hm
  rw [show (0x2000 : Word).toNat = 0x2000 from rfl]
  obtain hx | hx := hx
  · have hpage := congrArg BitVec.toNat hx
    rw [toNat_pageOf] at hpage
    change _ = a.toNat at hpage
    omega
  · have hpage := congrArg BitVec.toNat hx
    rw [toNat_pageOf] at hpage
    change _ = (a + 0x1000).toNat at hpage
    omega

theorem emptyPages_owned (hown : Owned g F 0 0 s) :
    Owned g F' 0 {got} (emptyPagesAt g s' a) := by
  have hheap := hm.valid.heap
  refine ⟨⟨emptyPages_sound hb hm, emptyPages_linked hm, ⟨⟨hheap.tables, hheap.dirs, fun x hx => ?_⟩,
    hheap.frees, hheap.proper, hheap.once⟩⟩, ?_, fun x hx => absurd hx (Multiset.notMem_zero x),
    fun x => ?_, ⟨fun _ _ => rfl, fun _ _ _ _ => rfl, fun _ _ => rfl⟩⟩
  · obtain ⟨h₁, h₂⟩ := emptyPages_range hm hx
    exact (hm.payload_free hown.valid h₁ h₂).2
  · exact hm.reserved.separate hown.valid.heap.proper hown.valid.heap.once hown.separate
  · have htiles := hown.tiles x
    have hdepth := hm.reserved.depth x
    rw [blocks, Multiset.map_zero, depthOf_zero] at htiles ⊢
    rw [depthOf_singleton]
    omega

theorem emptyPages_scratched : Scratched (emptyPagesAt g s' a) := by
  obtain ⟨h0, h1, -, -, hnat⟩ := emptyPages_facts hm
  have hl := hm.valid.linked
  have hne := emptyPages_ne hb hm
  have hopen0 := (emptyPages_free hb hm (Nat.le_refl a.toNat) (by omega)).2
  have hopen1 := (emptyPages_free hb hm (b := a + 0x1000) (by omega) (by omega)).2
  refine ⟨fun p hp => ?_, hne⟩
  obtain rfl | rfl : p = g.slot a ∨ p = g.slot (a + 0x1000) := hp
  · refine ⟨(hl.kernel _ (Linked.shared_of_heap h0)).1, ?_⟩
    rw [emptyPagesAt, Kernel.page_setEntry_of_ne _ _ hne, Kernel.page_setEntry_self]
    exact ⟨rfl, hopen0.1, hopen0.2.1⟩
  · refine ⟨(hl.kernel _ (Linked.shared_of_heap h1)).1, ?_⟩
    rw [emptyPagesAt, Kernel.page_setEntry_self, Kernel.page_setEntry_of_ne _ _ hne.symm]
    exact ⟨rfl, hopen1.1, hopen1.2.1⟩

theorem emptyPages_coherent : Coherent g (emptyPagesAt g s' a) := by
  obtain ⟨h0, h1, -⟩ := emptyPages_facts hm
  have hl := hm.valid.linked
  have hdirs : s'.dirs = s.dirs := (congrArg Kernel.dirs hm.rest :)
  have hdir : s'.dir = s.dir := (congrArg Kernel.dir hm.rest :)
  -- so far everything lies in static memory
  have hback : ∀ b f, Backed g s b f → Backed g (emptyPagesAt g s' a) b f := by
    intro b f hf
    obtain ⟨hheap, -⟩ | ⟨hshared, hid, hpresent⟩ := hf.place
    · exact absurd (hf.addr.symm.trans (hb.unmapped b hheap)) hf.held
    · have hpage : (emptyPagesAt g s' a).page (g.slot b) = s.page (g.slot b) := by
        rw [page_emptyPagesAt, hm.steps.page_identity hb.sound.frames hid]
        · exact fun e => hl.slot_notMem_identity h0 (e ▸ hid)
        · exact fun e => hl.slot_notMem_identity h1 (e ▸ hid)
      exact ⟨by rw [hpage]; exact hf.addr, hf.held,
        .inr ⟨hshared, hid, by rw [hpage]; exact hpresent⟩⟩
  have hold := hb.coherent
  refine ⟨fun d hd => ?_, fun d hd => ?_⟩
  · change d ∈ s'.dirs at hd
    change Agrees g _ (s'.dir d)
    rw [hdirs] at hd
    rw [hdir]
    exact (hold.agrees d hd).mono fun _ f _ hf => hback _ f hf
  · change d ∈ s'.dirs at hd
    change ∃ f, _ ∧ (s'.dir d).phyaddr = _
    rw [hdirs] at hd
    rw [hdir]
    obtain ⟨f, hf, hphy⟩ := hold.phyaddr d hd
    exact ⟨f, hback _ f hf, hphy⟩

end EmptyPages

/-- What `Page::init` leaves behind, with the directory as it was. -/
theorem initEmptyPages_ends (hb : Booted g s) :
    Ends initEmptyPages s (fun _ s' => Started g 0 s' ∧ s'.dirs = s.dirs ∧ s'.dir = s.dir ∧
      s'.kernelLowNtable = s.kernelLowNtable) (fun e _ => e.Exhausted) := by
  have hown := hb.owned
  have hend : Ends (kmalloc 0x2000 12) s _ _ := kmalloc_ends hown.valid (by decide) (by decide)
  cases hrun : kmalloc 0x2000 12 s with
  | mk r s₁ =>
      cases r with
      | error e => exact .of_error (bind_error hrun) (hend.error hrun)
      | ok a =>
          obtain ⟨F', got, hm⟩ := hend.ok hrun
          obtain ⟨h0, h1, -⟩ := emptyPages_facts hm
          refine .of_ok (initEmptyPages_apply hm.valid.linked h0 h1 hrun) ⟨⟨⟨F', {got},
            emptyPages_owned hb hm hown⟩, emptyPages_scratched hb hm, emptyPages_coherent hb hm⟩,
            (congrArg Kernel.dirs hm.rest :), (congrArg Kernel.dir hm.rest :),
            (congrArg Kernel.kernelLowNtable hm.rest :)⟩

end Jkos.Page
