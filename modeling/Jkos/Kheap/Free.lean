import Jkos.Kheap.Alloc

/-!
# `kfree` on mapped pages

`kfree` reads the header of a block, merges the block into the free ones and gives the
pages of a range back. The range lies in the merged block, so that every other page
keeps its entry.
-/

namespace Jkos.Page

open Exec Kheap

variable {g : Layout} {c : Prop} {K : Set Slot} {s s' s'' : Kernel} {p q : Slot}
  {F F' : Multiset Block}

/-! ## The header -/

theorem wordOf_wordBytes (w : Word) : wordOf (wordBytes w) = w := by
  apply BitVec.eq_of_getLsbD_eq
  intro i hi
  simp only [wordOf, wordBytes, BitVec.getLsbD_append, BitVec.getLsbD_setWidth,
    BitVec.getLsbD_ushiftRight]
  grind

theorem ofBytes_bytes (b : Block) : Block.ofBytes b.bytes = b := by
  have hstart : b.bytes.take 4 = wordBytes b.start := rfl
  have hsize : b.bytes.drop 4 = wordBytes b.size := rfl
  rw [Block.ofBytes, hstart, hsize, wordOf_wordBytes, wordOf_wordBytes]

/-- Loading bytes that are in memory. -/
theorem load_of_cells (hs : Sound g c s) {src : Word} {vs : List Byte}
    (hcell : ∀ k (hk : k < vs.length), Cell s s.currentPageDir (src + BitVec.ofNat 32 k) vs[k])
    (hready : ∀ k < vs.length,
      Ready g s (src + BitVec.ofNat 32 k) false (s.kernelCodeEnd - 1)) :
    load src vs.length s = (.ok vs, s) := by
  induction vs generalizing src with
  | nil => rfl
  | cons v vs ih =>
      have hzero : src + BitVec.ofNat 32 0 = src := by simp
      have hfirst := hcell 0 (by simp)
      have hready₀ := hready 0 (by simp)
      rw [hzero] at hfirst hready₀
      obtain ⟨p, hlook, hheld, hv⟩ := hfirst
      obtain ⟨q, hlook', hq, hgrant, -⟩ := hready₀
      obtain rfl : p = q := Option.some.inj (hlook.symm.trans hlook')
      have hrest : load (src + 1) vs.length s = (.ok vs, s) := by
        refine ih (fun k hk => ?_) (fun k hk => ?_)
        · have := hcell (k + 1) (by simpa using hk)
          rw [← add_one_add] at this
          simpa using this
        · have := hready (k + 1) (by simpa using hk)
          rwa [← add_one_add] at this
      have hbyte : readByte src (s.kernelCodeEnd - 1) s = (.ok v, s) := by
        rw [readByte_of_held hs hlook hq hgrant hheld, hv]
        rfl
      rw [List.length_cons, load, bind_ok (x := kernelEip) rfl, bind_ok hbyte, bind_ok hrest]
      rfl

/-! ## Freeing pages -/

/-- `free` changes only its entry, which then holds no frame. -/
theorem free_page (s : Kernel) (p : Slot) :
    ((free p s).2.page p).addr = 0 ∧ (∀ q, q ≠ p → (free p s).2.page q = s.page q) ∧
      (free p s).2.phys = s.phys := by
  by_cases hzero : (s.page p).addr = 0
  · rw [free_of_zero hzero]
    exact ⟨hzero, fun _ _ => rfl, rfl⟩
  · by_cases hone : s.frameRefCnt (s.page p).addr = 1
    · rw [free_of_one hzero hone, Kernel.page_setEntry_self]
      exact ⟨rfl, fun q hq => Kernel.page_setEntry_of_ne _ _ hq, rfl⟩
    · rw [free_of_many hzero hone, Kernel.page_setEntry_self]
      exact ⟨rfl, fun q hq => Kernel.page_setEntry_of_ne _ _ hq, rfl⟩

/-- The pages from `lo` to `hi` have given up their frames. -/
structure Cleared (g : Layout) (lo hi : Word) (s s' : Kernel) : Prop where
  phys : s'.phys = s.phys
  freed : ∀ i, pageOf i = i → lo ≤ i → i < hi → (s'.page (g.slot i)).addr = 0
  kept : ∀ q, (∀ i, pageOf i = i → lo ≤ i → i < hi → q ≠ g.slot i) → s'.page q = s.page q

/-- `free_interval` on heap pages. -/
theorem freeInterval_ends {lo hi : Word} (hs : Sound g c s) (hl : Linked g s)
    (halign : pageOf lo = lo ∧ pageOf hi = hi)
    (hheap : ∀ i, pageOf i = i → lo ≤ i → i < hi → HeapAddr i ∧ ¬ ScratchPage s i) :
    Ends (freeInterval s.currentPageDir lo hi) s
      (fun _ s' => Work g c g.kernelSlots s s' ∧ Cleared g lo hi s s') (fun _ _ => False) := by
  let I : Word → Kernel → Prop := fun i s' => Work g c g.kernelSlots s s' ∧ s'.phys = s.phys ∧
    (∀ j, pageOf j = j → lo ≤ j → j < i → j < hi → (s'.page (g.slot j)).addr = 0) ∧
    ∀ q, (∀ j, pageOf j = j → lo ≤ j → j < hi → q ≠ g.slot j) → s'.page q = s.page q
  have hI : I lo s := by
    refine ⟨.refl, rfl, fun j _ hle hlt => ?_, fun _ _ => rfl⟩
    rw [BitVec.le_def] at hle
    rw [BitVec.lt_def] at hlt
    omega
  refine (interval_ends I hI (fun i s₁ hi' hle hlt h => ?_) (fun h => h halign)).mono ?_
    (fun _ _ h => h)
  · obtain ⟨hwork, hphys, hfreed, hkept⟩ := h
    obtain ⟨haddr, hscratch⟩ := hheap i hi' hle hlt
    have hl₁ := hl.congr hwork.rest
    have hlook : lookup s₁ s.currentPageDir i = some (g.slot i) := by
      rw [← hwork.current_eq]
      exact (hl₁.lookup_heap hl₁.current haddr).1
    have hedit : Editable g s₁ (g.slot i) := hwork.steps.editable (hl.editable_heap haddr hscratch)
    have hshape := (hwork.steps.sound hs).shaped _ hedit
    have hk : (g.slot i).table ∈ g.kernel := (hl.lookup_heap hl.current haddr).2
    have hprev : ∀ j, pageOf j = j → j < i + 0x1000 → j ≠ i → j < i := by
      intro j hj hltj hji
      obtain ⟨hnext, -, -⟩ := next_page hi' halign.2 hlt
      have hjn := congrArg BitVec.toNat hj
      have hin := congrArg BitVec.toNat hi'
      rw [toNat_pageOf] at hjn hin
      have hne : j.toNat ≠ i.toNat := fun e => hji (Word.ext_toNat e)
      rw [BitVec.lt_def, hnext] at hltj
      rw [BitVec.lt_def]
      omega
    rw [Ends.bind_read, hlook]
    change Ends (read (·.page (g.slot i)) >>= _) s₁ _ _
    rw [Ends.bind_read]
    by_cases hpresent : (s₁.page (g.slot i)).present = true
    · rw [if_pos hpresent]
      obtain ⟨hzero, hother, hphys'⟩ := free_page s₁ (g.slot i)
      have hrun : free (g.slot i) s₁ = (.ok (), (free (g.slot i) s₁).2) := rfl
      refine .of_ok hrun ⟨hwork.trans (free_ends hk hedit), hphys'.trans hphys,
        fun j hj hlej hltj hltj' => ?_, fun q hq => ?_⟩
      · by_cases he : g.slot j = g.slot i
        · rw [he]
          exact hzero
        · rw [hother _ he]
          exact hfreed j hj hlej (hprev j hj hltj fun e => he (e ▸ rfl)) hltj'
      · rw [hother q (hq i hi' hle hlt)]
        exact hkept q hq
    · rw [if_neg hpresent]
      have hzero : (s₁.page (g.slot i)).addr = 0 := by
        by_contra hheld
        exact hpresent (hshape.1.mpr hheld)
      refine ⟨hwork, hphys, fun j hj hlej hltj hltj' => ?_, hkept⟩
      by_cases he : j = i
      · rw [he]
        exact hzero
      · exact hfreed j hj hlej (hprev j hj hltj he) hltj'
  · rintro - s' ⟨j, hj, hwork, hphys, hfreed, hkept⟩
    refine ⟨hwork, hphys, fun i hi' hle hlt => hfreed i hi' hle ?_ hlt, hkept⟩
    rw [BitVec.lt_def] at hlt ⊢
    rw [BitVec.le_def] at hj
    omega

/-! ## `kfree` -/

/-- What `kfree` does before it frees pages: the block of the header becomes free. -/
def unlink (addr : Word) : Prog (Word × Word) := do
  let blk := Block.ofBytes (← load (addr - sizeofBlock) 8)
  onHeap (release addr blk)

theorem kfree_eq (addr : Word) : kfree addr = (do
    let range ← unlink addr
    freeInterval (← read (·.currentPageDir)) (getAligned range.1 12) (pageOf range.2)) := by
  funext s
  simp only [kfree, unlink, bind_apply]
  cases load (addr - sizeofBlock) 8 s with
  | mk r t => cases r <;> rfl

/-- A pointer with a readable header in front of it, which records `blk`; the block holds
no table, directory or scratch page. -/
structure Allocated (g : Layout) (F : Multiset Block) (ptr : Word) (blk : Block) (s : Kernel) :
    Prop where
  proper : blk.Proper
  once : ∀ x, depthOf F x + blk.span.at x ≤ 1
  cells : ∀ k (hk : k < blk.bytes.length),
    Cell s s.currentPageDir (ptr - 8 + BitVec.ofNat 32 k) blk.bytes[k]
  ready : ∀ k < 8, Ready g s (ptr - 8 + BitVec.ofNat 32 k) false (s.kernelCodeEnd - 1)
  clear : Clear {blk} s

/-- What `kfree` achieves. -/
structure Freed (g : Layout) (c : Prop) (F F' : Multiset Block) (blk : Block)
    (freeStart freeEnd : Word) (s s' : Kernel) : Prop where
  valid : Valid g c F' s'
  released : Released F F' blk freeStart freeEnd
  steps : Steps g c g.kernelSlots s s'
  rest : s'.rest = ({ s with heap := s'.heap } : Kernel).rest
  cleared : Cleared g (getAligned freeStart 12) (pageOf freeEnd) s s'

variable {ptr : Word} {blk : Block}

/-- The header of an allocated block is what `kmalloc` left there. -/
theorem Allocated.load_header (h : Allocated g F ptr blk s) (hs : Sound g c s) :
    load (ptr - sizeofBlock) 8 s = (.ok blk.bytes, s) :=
  load_of_cells hs h.cells h.ready

theorem HeapInv.release {h' : Heap} (h : HeapInv F s) (hfrees : Frees h' F' F')
    {freeStart freeEnd : Word} (hrel : Released F F' blk freeStart freeEnd)
    (hblk : Allocated g F ptr blk s) : HeapInv F' { s with heap := h' } := by
  have hclear : Clear F' s := h.toClear.add hblk.clear fun x => by
    rw [hrel.depth, depthOf_singleton]
  refine ⟨⟨hclear.tables, hclear.dirs, hclear.scratch⟩, hfrees, hrel.free, fun x => ?_⟩
  rw [hrel.depth]
  exact hblk.once x

/-- `kfree` merges the block of an allocated pointer into the free ones. -/
theorem unlink_ends (h : Valid g c F s) (hblk : Allocated g F ptr blk s) :
    Ends (unlink ptr) s (fun r s' => ∃ F' h', s' = { s with heap := h' } ∧ Valid g c F' s' ∧
      Released F F' blk r.1 r.2) (fun e _ => e = .outOfNodes) := by
  rw [unlink, Ends.bind_of_ok (hblk.load_header h.sound), ofBytes_bytes]
  have htrees := release_triple ptr h.heap.proper hblk.proper hblk.once s.heap h.heap.frees
  refine (onHeap_ends htrees).mono ?_ (fun _ _ h => h)
  rintro ⟨freeStart, freeEnd⟩ s₁ ⟨h', ⟨F', hfrees, hrel⟩, rfl⟩
  have hstep : Step g c ∅ s { s with heap := h' } := .other rfl rfl rfl rfl rfl rfl rfl
  exact ⟨F', h', rfl, ⟨hstep.sound h.sound, h.linked.setHeap h', h.heap.release hfrees hrel hblk⟩,
    hrel⟩

/-- The pages that `kfree` gives back lie in the merged free block. -/
theorem Released.pages_inside {freeStart freeEnd : Word} (h : Released F F' blk freeStart freeEnd) :
    ∃ m ∈ F', m.start.toNat ≤ blk.start.toNat ∧ blk.stop ≤ m.stop ∧
      ∀ i : Word, pageOf i = i → getAligned freeStart 12 ≤ i → i < pageOf freeEnd →
        m.start.toNat ≤ i.toNat ∧ i.toNat + 4096 ≤ m.stop := by
  obtain ⟨m, hm, hstart, hstop, hfs, hfe⟩ := h.range
  refine ⟨m, hm, hstart, hstop, fun i hi h₁ h₂ => ?_⟩
  have hproper := h.free m hm
  have hhi := hproper.hi
  rw [← Block.stop] at hhi
  have hpos : m.start.toNat < m.stop := by
    have := hproper.pos
    rw [Block.stop]
    omega
  have hlt := hproper.lo
  have hround : (getAligned freeStart 12).toNat = (freeStart.toNat + 2 ^ 12 - 1) / 2 ^ 12 * 2 ^ 12 :=
    toNat_getAligned (by
      have := toNat_pageOf blk.start
      omega)
  have hin := congrArg BitVec.toNat hi
  rw [toNat_pageOf] at hin
  rw [BitVec.le_def, hround] at h₁
  rw [BitVec.lt_def, toNat_pageOf] at h₂
  omega

theorem kfree_ends (h : Valid g c F s) (hblk : Allocated g F ptr blk s) :
    Ends (kfree ptr) s (fun _ s' => ∃ F' freeStart freeEnd,
      Freed g c F F' blk freeStart freeEnd s s') (fun e _ => e = .outOfNodes) := by
  rw [kfree_eq]
  refine Ends.bind (unlink_ends h hblk) ?_
  rintro ⟨freeStart, freeEnd⟩ s₁ ⟨F', h', rfl, hvalid, hrel⟩
  rw [Ends.bind_read]
  have halign : pageOf (getAligned freeStart 12) = getAligned freeStart 12 ∧
      pageOf (pageOf freeEnd) = pageOf freeEnd := ⟨pageOf_getAligned _, pageOf_pageOf _⟩
  refine (freeInterval_ends hvalid.sound hvalid.linked halign fun i hi h₁ h₂ => ?_).mono ?_
    (fun _ _ h => h.elim)
  · obtain ⟨m, hm, -, -, hinside⟩ := Released.pages_inside hrel
    obtain ⟨hlo, hhi⟩ := hinside i hi h₁ h₂
    have hproper := hrel.free m hm
    have hmhi := hproper.hi
    rw [← Block.stop] at hmhi
    refine ⟨⟨hproper.lo.trans hlo, by omega⟩, fun hscratch => ?_⟩
    have hzero := hvalid.heap.scratch i hscratch
    have hpos : 0 < depthOf F' i.toNat := Cover.depth_pos_iff.mpr
      ⟨m.span, Multiset.mem_map_of_mem _ hm, hlo, by
        change i.toNat < m.stop
        omega⟩
    omega
  · rintro - s' ⟨hwork, hcleared⟩
    refine ⟨F', freeStart, freeEnd, hvalid.work hwork, hrel, ?_, ?_, ?_⟩
    · have hfirst : Step g c g.kernelSlots s { s with heap := h' } :=
        .other rfl rfl rfl rfl rfl rfl rfl
      exact .head hfirst hwork.steps
    · have hheap : s'.heap = h' := (congrArg Kernel.heap hwork.rest :)
      rw [hwork.rest, hheap]
    · exact ⟨hcleared.phys, hcleared.freed, hcleared.kept⟩

end Jkos.Page
