import Jkos.Page.System

/-!
# Frames behind free blocks

A page that lies wholly in a free block needs no frame. `kfree` gives such pages back,
except for one: when the block ends inside a page, the end of the range is rounded down
before the following free block is taken into account, and the page that holds the end
keeps its frame. In a run every page of every free block is without a frame exactly if no
call to `kfree` meets that case.
-/

namespace Jkos.Page

open Exec Kheap

/-- The page at `a` lies in a free block. -/
def WhollyFree (F : Multiset Block) (a : Word) : Prop :=
  ∃ b ∈ F, b.start.toNat ≤ a.toNat ∧ a.toNat + 4096 ≤ b.stop

/-- The page at an address has a frame. -/
def HasFrame (s : Kernel) (a : Word) : Prop :=
  ∃ p, lookup s s.currentPageDir a = some p ∧ (s.page p).addr ≠ 0

/-- No page of a free block has a frame. -/
def Tidy (s : Kernel) : Prop :=
  ∀ F, Frees s.heap F F → ∀ a, pageOf a = a → WhollyFree F a → ¬ HasFrame s a

/-- The block ends inside a page that has a frame and holds nothing but bytes of the block
and of free blocks. -/
def TailHeld (s : Kernel) (F : Multiset Block) (blk : Block) : Prop :=
  ∃ a, pageOf a = a ∧ a.toNat < blk.stop ∧ blk.stop < a.toNat + 4096 ∧
    (∀ y, a.toNat ≤ y → y < a.toNat + 4096 → 0 < depthOf (blk ::ₘ F) y) ∧ HasFrame s a

/-- If the step is a call to `kfree`, then of a block whose last page is not of that kind. -/
def FreesCleanly (σ σ' : HeapSystem) : Prop :=
  ∀ x F, σ.live = x ::ₘ σ'.live → Frees σ.kernel.heap F F →
    ¬ TailHeld σ.kernel F (recorded σ.kernel x.ptr)

variable {g : Layout} {K : Set Slot} {s s' s₀ : Kernel} {σ σ' : HeapSystem}
  {F F' : Multiset Block} {live : Multiset Chunk} {own : Multiset Block} {x : Chunk} {a : Word}

theorem WhollyFree.depth_pos (h : WhollyFree F a) {y : Nat} (h₁ : a.toNat ≤ y)
    (h₂ : y < a.toNat + 4096) : 0 < depthOf F y := by
  obtain ⟨b, hb, hlo, hhi⟩ := h
  exact depthOf_pos_of_mem hb (by omega) (by omega)

namespace Owned

theorem whollyFree_iff (h : Owned g F live own s) :
    WhollyFree F a ↔ ∀ y, a.toNat ≤ y → y < a.toNat + 4096 → 0 < depthOf F y :=
  ⟨fun hfree _ h₁ h₂ => hfree.depth_pos h₁ h₂, fun hcov =>
    h.separate.exists_block h.valid.heap.proper h.valid.heap.once (by omega) hcov⟩

/-- An owned address is in the heap. -/
theorem heapAddr_of_depth (h : Owned g F live own s)
    (hpos : 0 < depthOf F a.toNat + (depthOf (blocks s live) a.toNat + depthOf own a.toNat)) :
    HeapAddr a := by
  by_contra hout
  rw [h.tiles] at hpos
  have hzero : heapSpan.at a.toNat = 0 := if_neg hout
  omega

theorem heapAddr_of_free (h : Owned g F live own s) (hfree : WhollyFree F a) :
    HeapAddr a ∧ ¬ ScratchPage s a := by
  have hpos := hfree.depth_pos (Nat.le_refl _) (by omega)
  refine ⟨h.heapAddr_of_depth (by omega), fun hscratch => ?_⟩
  have := h.valid.heap.scratch a hscratch
  omega

/-- The page of a heap address has a frame if its entry in the common tables has one. -/
theorem hasFrame_iff (h : Owned g F live own s) (ha : HeapAddr a) :
    HasFrame s a ↔ (s.page (g.slot a)).addr ≠ 0 := by
  have hlook := (h.valid.linked.lookup_heap h.valid.linked.current ha).1
  constructor
  · rintro ⟨p, hp, hheld⟩
    rw [← Option.some.inj (hp.symm.trans hlook)]
    exact hheld
  · exact fun hheld => ⟨_, hlook, hheld⟩

/-- Entries of heap pages are the same only for the same page. -/
theorem eq_of_slot (h : Owned g F live own s) {i : Word} (ha : HeapAddr a) (hi : HeapAddr i)
    (he : g.slot a = g.slot i) : pageOf a = pageOf i :=
  h.valid.linked.slot_inj (Linked.shared_of_heap ha) (Linked.shared_of_heap hi) he

/-- The owner's free blocks are those in the trees. -/
theorem tidy_iff (h : Owned g F live own s) :
    Tidy s ↔ ∀ a, pageOf a = a → WhollyFree F a → (s.page (g.slot a)).addr = 0 := by
  constructor
  · intro ht a ha hfree
    by_contra hheld
    exact ht F h.valid.heap.frees a ha hfree
      ((h.hasFrame_iff (h.heapAddr_of_free hfree).1).mpr hheld)
  · intro ht G hG a ha hfree hframe
    rw [hG.unique h.valid.heap.frees] at hfree
    exact (h.hasFrame_iff (h.heapAddr_of_free hfree).1).mp hframe (ht a ha hfree)

/-! ## What a step does to free pages -/

/-- `kmalloc` gives frames only to the pages of a header. -/
theorem tidy_kmalloc {size start : Word} {palign : Nat} {got : Block}
    (h : Owned g F live own s) (hm : Malloced g True F F' size palign start got s s')
    (ht : Tidy s) : Tidy s' := by
  have h' := h.kmalloc hm
  rw [h.tidy_iff] at ht
  rw [h'.tidy_iff]
  intro a ha hfree
  have hle : ∀ y, depthOf F' y ≤ depthOf F y := fun y => by rw [hm.reserved.depth]; omega
  have hfree₀ : WhollyFree F a := h.whollyFree_iff.mpr fun y h₁ h₂ =>
    (hfree.depth_pos h₁ h₂).trans_le (hle y)
  obtain ⟨hheap, hscratch⟩ := h.heapAddr_of_free hfree₀
  by_contra hheld
  obtain ⟨-, b, hb₁, hb₂, he⟩ := hm.frames (g.slot a)
    (h.valid.linked.editable_heap hheap hscratch) (by rw [ht a ha hfree₀]; exact hheld)
  -- the header would lie in a free block
  have hhead := hm.reserved.header
  have hpay := hm.reserved.payload
  have hb := (hm.opened b hb₁ (by omega)).1
  have hpage := congrArg BitVec.toNat (h.eq_of_slot hheap hb he)
  rw [ha, toNat_pageOf] at hpage
  have hpos := hfree.depth_pos (y := b.toNat) (by omega) (by omega)
  have hin : got.start.toNat ≤ b.toNat ∧ b.toNat < got.start.toNat + got.size.toNat := by omega
  have honce := h.valid.heap.once b.toNat
  rw [hm.reserved.depth, Cover.Span.at_of_mem (a := got.span) hin] at honce
  omega

/-- An access to a page of a live block gives no frame to a free page. -/
theorem tidy_touch {b : Word} (h : Owned g F live own s) (hown' : Owned g F live own s')
    (htouch : Touch g True {g.slot b} s s') (hb : InLivePage s live b) (ht : Tidy s) :
    Tidy s' := by
  rw [h.tidy_iff] at ht
  rw [hown'.tidy_iff]
  intro a ha hfree
  obtain ⟨hheap, hscratch⟩ := h.heapAddr_of_free hfree
  have hne : g.slot a ∉ ({g.slot b} : Set Slot) := by
    intro he
    have hpage := h.eq_of_slot hheap (h.inLivePage hb).1 he
    obtain ⟨y, h₁, h₂, hpos⟩ := hb
    rw [← hpage, ha] at h₁ h₂
    have := hfree.depth_pos h₁ h₂
    have := h.depth_le_one y
    omega
  rw [(htouch.work.steps.kept (h.valid.linked.editable_heap hheap hscratch) hne).addr]
  exact ht a ha hfree

variable {freeStart freeEnd : Word}

/-- The entry of a page that `kfree` does not free. -/
theorem kfree_page (h : Owned g F (x ::ₘ live) own s)
    (hf : Freed g True F F' (recorded s x.ptr) freeStart freeEnd s s') (hheap : HeapAddr a)
    (ha : pageOf a = a) (hout : ¬ (getAligned freeStart 12 ≤ a ∧ a < pageOf freeEnd)) :
    s'.page (g.slot a) = s.page (g.slot a) := by
  refine hf.cleared.kept _ fun i hi h₁ h₂ he => hout ?_
  obtain ⟨m, hm, -, -, hinside⟩ := Released.pages_inside hf.released
  obtain ⟨hlo, hhi⟩ := hinside i hi h₁ h₂
  have hproper := hf.released.free m hm
  have hmlo := hproper.lo
  have hmhi := hproper.hi
  rw [← Block.stop] at hmhi
  have hpage := h.eq_of_slot hheap (i := i) ⟨by omega, by omega⟩ he
  rw [ha, hi] at hpage
  rw [hpage]
  exact ⟨h₁, h₂⟩

/-- `kfree` misses a page exactly if the block ends in it. -/
theorem tidy_kfree_iff (h : Owned g F (x ::ₘ live) own s)
    (hf : Freed g True F F' (recorded s x.ptr) freeStart freeEnd s s') (ht : Tidy s) :
    Tidy s' ↔ ¬ TailHeld s F (recorded s x.ptr) := by
  have h' := h.kfree hf
  have hblk := (h.chunks x (Multiset.mem_cons_self x live)).proper
  obtain ⟨m, hm, hmlo, hmhi, hfs, hfe⟩ := hf.released.range
  have hround : (getAligned freeStart 12).toNat =
      (freeStart.toNat + 2 ^ 12 - 1) / 2 ^ 12 * 2 ^ 12 := by
    apply toNat_getAligned
    have := (hf.released.free m hm).hi
    have := (hf.released.free m hm).pos
    have := toNat_pageOf (recorded s x.ptr).start
    have := hblk.hi
    omega
  have hdepth : ∀ y, depthOf (recorded s x.ptr ::ₘ F) y = depthOf F' y := fun y => by
    rw [depthOf_cons, hf.released.depth]
    omega
  rw [h.tidy_iff] at ht
  rw [h'.tidy_iff]
  constructor
  · rintro ht' ⟨a, ha, hlt, hgt, hcov, hframe⟩
    simp only [hdepth] at hcov
    have hfree : WhollyFree F' a := h'.whollyFree_iff.mpr hcov
    obtain ⟨hheap, -⟩ := h'.heapAddr_of_free hfree
    refine (h.hasFrame_iff hheap).mp hframe ?_
    rw [← h.kfree_page hf hheap ha ?_]
    · exact ht' a ha hfree
    · rintro ⟨-, hend⟩
      have han := congrArg BitVec.toNat ha
      rw [toNat_pageOf] at han
      rw [BitVec.lt_def, toNat_pageOf, hfe] at hend
      omega
  · intro hclean a ha hfree
    obtain ⟨hheap, -⟩ := h'.heapAddr_of_free hfree
    by_cases hin : getAligned freeStart 12 ≤ a ∧ a < pageOf freeEnd
    · exact hf.cleared.freed a ha hin.1 hin.2
    · rw [h.kfree_page hf hheap ha hin]
      by_contra hheld
      have hnot : ¬ WhollyFree F a := fun hfree₀ => hheld (ht a ha hfree₀)
      -- some byte of the page belongs to the freed block
      obtain ⟨y, h₁, h₂, hzero⟩ : ∃ y, a.toNat ≤ y ∧ y < a.toNat + 4096 ∧ depthOf F y = 0 := by
        by_contra hnone
        refine hnot (h.whollyFree_iff.mpr fun y h₁ h₂ => Nat.pos_of_ne_zero fun e => ?_)
        exact hnone ⟨y, h₁, h₂, e⟩
      have hy : (recorded s x.ptr).start.toNat ≤ y ∧ y < (recorded s x.ptr).stop := by
        by_contra hout
        have hpos := hfree.depth_pos h₁ h₂
        have hblk0 : (recorded s x.ptr).span.at y = 0 := if_neg hout
        rw [hf.released.depth, hzero, hblk0] at hpos
        omega
      -- so the page is in the merged block, behind the beginning of the range
      obtain ⟨b, hb, hblo, hbhi⟩ := hfree
      have hbm : b = m := eq_of_overlap (x := y) hb hm h'.valid.heap.once (by omega) (by omega)
      rw [hbm] at hblo hbhi
      have hge : getAligned freeStart 12 ≤ a := by
        have han := congrArg BitVec.toNat ha
        have hpn := toNat_pageOf (recorded s x.ptr).start
        rw [toNat_pageOf] at han
        rw [BitVec.le_def, hround, hfs]
        omega
      have hge' : pageOf freeEnd ≤ a := BitVec.not_lt.mp fun hlt => hin ⟨hge, hlt⟩
      rw [BitVec.le_def, toNat_pageOf, hfe] at hge'
      have hne : (recorded s x.ptr).stop < a.toNat + 4096 := by
        have han := congrArg BitVec.toNat ha
        rw [toNat_pageOf] at han
        omega
      refine hclean ⟨a, ha, by omega, hne, fun z hz₁ hz₂ => ?_, (h.hasFrame_iff hheap).mpr hheld⟩
      rw [hdepth]
      exact depthOf_pos_of_mem hm (by omega) (by omega)

end Owned

/-! ## Runs -/

theorem HeapStep.tidy_iff (h : HeapStep σ σ') (hown : Owned g F σ.live own σ.kernel)
    (ht : Tidy σ.kernel) : Tidy σ'.kernel ↔ FreesCleanly σ σ' := by
  -- a step that is no call to `kfree` satisfies the condition for lack of a freed pointer
  have hother : Multiset.card σ.live ≤ Multiset.card σ'.live → FreesCleanly σ σ' := by
    intro hcard x _ hlive
    rw [hlive, Multiset.card_cons] at hcard
    omega
  cases h with
  | kmalloc hsize hpalign run =>
      obtain ⟨F', got, hm⟩ := (kmalloc_ends hown.valid hsize hpalign).ok run
      exact iff_of_true (hown.tidy_kmalloc hm ht) (hother (by simp))
  | @kfree s s' live x run =>
      obtain ⟨F', freeStart, freeEnd, hf⟩ := (kfree_ends hown.valid hown.allocated).ok run
      rw [hown.tidy_kfree_iff hf ht]
      constructor
      · intro hclean y G hlive hG
        obtain rfl : x = y := (Multiset.cons_inj_left live).mp hlive
        rw [hG.unique hown.valid.heap.frees]
        exact hclean
      · exact fun hclean => hclean x F rfl hown.valid.heap.frees
  | @write s s' live x a eip v hx lower upper heip run =>
      obtain ⟨htouch, hown'⟩ := (hown.write_ends hx lower upper heip v).ok run
      obtain ⟨-, hlo, hhi⟩ := (hown.chunks x hx).heapAddr (a := a) (by omega) upper
      have hpage := toNat_pageOf a
      have hin : InLivePage s live a := ⟨a.toNat, by omega, by omega,
        depthOf_pos_of_mem (Multiset.mem_map_of_mem _ hx) hlo hhi⟩
      exact iff_of_true (hown.tidy_touch hown' htouch hin ht) (hother (Nat.le_refl _))
  | read page heip run =>
      obtain ⟨htouch, hown'⟩ := (hown.read_ends page heip).ok run
      exact iff_of_true (hown.tidy_touch hown' htouch page ht) (hother (Nat.le_refl _))

theorem tidy_iff_of_chain {run : List HeapSystem} (hown : Owned g F σ.live own σ.kernel)
    (ht : Tidy σ.kernel) (hrun : List.IsChain HeapStep (σ :: run)) :
    (∀ σ' ∈ run, Tidy σ'.kernel) ↔ List.IsChain FreesCleanly (σ :: run) := by
  induction run generalizing σ F with
  | nil => exact iff_of_true (by simp) (.singleton σ)
  | cons σ₁ run ih =>
      rw [List.isChain_cons_cons] at hrun ⊢
      obtain ⟨hstep, hrest⟩ := hrun
      obtain ⟨F₁, hown₁⟩ := hstep.owned hown
      rw [List.forall_mem_cons, ← hstep.tidy_iff hown ht]
      refine and_congr_right fun ht₁ => ?_
      exact ih hown₁ ht₁ hrest

theorem Booted.tidy (h : Booted g s₀) : Tidy s₀ := by
  rw [h.owned.tidy_iff]
  intro a _ hfree
  exact h.unmapped a (h.owned.heapAddr_of_free hfree).1

theorem Kernel.addr_setPresent (s : Kernel) (p q : Slot) :
    ((s.setEntry p ({ · with present := true })).page q).addr = (s.page q).addr := by
  by_cases he : q = p
  · rw [he, Kernel.page_setEntry_self]
  · rw [Kernel.page_setEntry_of_ne _ _ he]

/-- The scratch pages are taken like any other block, and their entries keep their frames. -/
theorem Started.tidy (hboot : Booted g s₀) (hinit : initEmptyPages s₀ = (.ok (), s)) :
    ∃ F own, Owned g F 0 own s ∧ Tidy s := by
  have hown := hboot.owned
  have hend : Ends (kmalloc 0x2000 12) s₀ _ _ :=
    kmalloc_ends hown.valid (by decide) (by decide)
  cases hrun : kmalloc 0x2000 12 s₀ with
  | mk r s₁ =>
      cases r with
      | error e =>
          have herr := hinit.symm.trans (bind_error hrun)
          cases herr
      | ok a =>
          obtain ⟨F', got, hm⟩ := hend.ok hrun
          obtain ⟨h0, h1, -⟩ := emptyPages_facts hm
          have happly := initEmptyPages_apply hm.valid.linked h0 h1 hrun
          cases hinit.symm.trans happly
          have hown' := emptyPages_owned hboot hm hown
          refine ⟨F', {got}, hown', ?_⟩
          have htidy := hown.tidy_kmalloc hm hboot.tidy
          rw [(hown.kmalloc hm).tidy_iff] at htidy
          rw [hown'.tidy_iff]
          intro b hb hfree
          rw [emptyPagesAt, Kernel.addr_setPresent, Kernel.addr_setPresent]
          exact htidy b hb hfree

/-- In every run after `Page::init`, all pages of free blocks are without frames after every
step exactly if no call to `kfree` is of a block that ends in a held page of free bytes. -/
theorem kfree_tidy_iff {run : List HeapSystem} (hboot : Booted g s₀)
    (hinit : initEmptyPages s₀ = (.ok (), s)) (hrun : List.IsChain HeapStep (⟨s, 0⟩ :: run)) :
    (∀ σ ∈ run, Tidy σ.kernel) ↔ List.IsChain FreesCleanly (⟨s, 0⟩ :: run) := by
  obtain ⟨F, own, hown, htidy⟩ := Started.tidy hboot hinit
  exact tidy_iff_of_chain hown htidy hrun

/-! ## Two pages that end in the middle -/

/-- The kernel serves a request of 5000 bytes, the last of them is written, and the memory is
taken back. -/
@[irreducible] def bootLarge : Kernel := (kmalloc 5000 0 bootStarted).2

@[irreducible] def bootTouched : Kernel := (writeByte 0xEFC0438F 7 0x100000 bootLarge).2

@[irreducible] def bootFreed : Kernel := (kfree 0xEFC03008 bootTouched).2

theorem bootFreed_facts :
    (kmalloc 5000 0 bootStarted).1.toOption = some 0xEFC03008 ∧
    (0x100000 : Word) < bootLarge.kernelCodeEnd ∧
    (writeByte 0xEFC0438F 7 0x100000 bootLarge).1.toOption = some () ∧
    (kfree 0xEFC03008 bootTouched).1.toOption = some () ∧
    (lookup bootFreed bootFreed.currentPageDir 0xEFC04000 = some ⟨0x2E3000, 4⟩ ∧
      (bootFreed.page ⟨0x2E3000, 4⟩).addr ≠ 0) ∧
    (treeStart.findGe ⟨⟨0xEFC01000, 0⟩⟩ bootFreed.heap).1.toOption = some 0x100100 ∧
    (((treeStart.get (treeStart.findGe ⟨⟨0xEFC01000, 0⟩⟩ bootFreed.heap).2).mem
      0x100100).key).toBlock = ⟨0xEFC03000, 0x10000000 - 0x3000⟩ := by
  decide +kernel

theorem bootLarge_run : kmalloc 5000 0 bootStarted = (.ok 0xEFC03008, bootLarge) := by
  rw [bootLarge]
  exact eq_ok_of_toOption bootFreed_facts.1

theorem bootTouched_run :
    writeByte 0xEFC0438F 7 0x100000 bootLarge = (.ok (), bootTouched) := by
  rw [bootTouched]
  exact eq_ok_of_toOption bootFreed_facts.2.2.1

theorem bootFreed_run : kfree 0xEFC03008 bootTouched = (.ok (), bootFreed) := by
  rw [bootFreed]
  exact eq_ok_of_toOption bootFreed_facts.2.2.2.1

/-- The states of that run. -/
def bootLargeRun : List HeapSystem :=
  [⟨bootLarge, ⟨0xEFC03008, 5000⟩ ::ₘ 0⟩, ⟨bootTouched, ⟨0xEFC03008, 5000⟩ ::ₘ 0⟩, ⟨bootFreed, 0⟩]

theorem bootLargeRun_steps : List.IsChain HeapStep (⟨bootStarted, 0⟩ :: bootLargeRun) := by
  refine .cons_cons (.kmalloc (by decide) (Nat.zero_le 22) bootLarge_run) ?_
  refine .cons_cons ?_ (.cons_cons (.kfree (x := ⟨0xEFC03008, 5000⟩) bootFreed_run) (.singleton _))
  exact .write (x := ⟨0xEFC03008, 5000⟩) (Multiset.mem_cons_self _ _) (by decide) (by decide)
    bootFreed_facts.2.1 bootTouched_run

theorem bootLargeRun_tidy_iff : (∀ σ ∈ bootLargeRun, Tidy σ.kernel) ↔
    List.IsChain FreesCleanly (⟨bootStarted, 0⟩ :: bootLargeRun) :=
  kfree_tidy_iff bootKernel_booted bootStarted_run bootLargeRun_steps

/-- A search in `tree_start` finds a free block. -/
theorem mem_of_findGe {h : Heap} {k : Block} {ptr : Word} (hF : Frees h F F)
    (hfind : (treeStart.findGe ⟨k⟩ h).1.toOption = some ptr) (hne : ptr ≠ null) :
    (((treeStart.get (treeStart.findGe ⟨k⟩ h).2).mem ptr).key).toBlock ∈ F := by
  obtain ⟨-, ⟨hnull, -⟩ | ⟨-, b, hb, hnode, -⟩⟩ :=
    (findGe_triple (T := treeStart) ⟨k⟩ h hF.symm).ok (eq_ok_of_toOption hfind)
  · exact absurd hnull hne
  · obtain ⟨c, hc, rfl⟩ := Multiset.mem_map.mp hb
    rw [hnode.2]
    exact hc

/-- The second page of the block is free, and keeps its frame. -/
theorem bootFreed_keeps (hF : Frees bootFreed.heap F F) :
    WhollyFree F 0xEFC04000 ∧ HasFrame bootFreed 0xEFC04000 := by
  obtain ⟨-, -, -, -, hframe, hfind, hkey⟩ := bootFreed_facts
  refine ⟨?_, _, hframe⟩
  have hmem := mem_of_findGe hF hfind (by decide)
  rw [hkey] at hmem
  exact ⟨_, hmem, by decide, by decide⟩

theorem kfree_leaves_frame : ¬ ∀ (g : Layout) (s₀ s : Kernel) (run : List HeapSystem),
    Booted g s₀ → initEmptyPages s₀ = (.ok (), s) → List.IsChain HeapStep (⟨s, 0⟩ :: run) →
      ∀ σ ∈ run, Tidy σ.kernel := by
  intro hclaim
  have htidy := hclaim bootLayout bootKernel bootStarted bootLargeRun bootKernel_booted
    bootStarted_run bootLargeRun_steps ⟨bootFreed, 0⟩ (by simp [bootLargeRun])
  obtain ⟨F, own, hown, -⟩ := Started.tidy bootKernel_booted bootStarted_run
  have hsteps := bootLargeRun_steps
  simp only [bootLargeRun, List.isChain_cons_cons] at hsteps
  obtain ⟨F₁, hown₁⟩ := hsteps.1.owned hown
  obtain ⟨F₂, hown₂⟩ := hsteps.2.1.owned hown₁
  obtain ⟨F₃, hown₃⟩ := hsteps.2.2.1.owned hown₂
  obtain ⟨hfree, hframe⟩ := bootFreed_keeps hown₃.valid.heap.frees
  exact htidy F₃ hown₃.valid.heap.frees 0xEFC04000 (by decide) hfree hframe

end Jkos.Page
