import Jkos.Kheap.Owned

/-!
# The state after booting

What `Page::init` has built when `kheap_finish_init` returns: the trees hold the whole
kernel heap, the tables of the kernel are in place and map static memory to itself, and
no page of the heap has a frame. Everything that the memory subsystem does later starts
from such a state.
-/

namespace Jkos.Page

open Exec Kheap

/-! ## The trees -/

/-- Where the static objects of `kheap.cpp` lie: the sentinels of the two trees and the
memory of the pool. -/
structure Statics where
  nilSize : Word
  nilStart : Word
  staticMem : Word
  nilSize_ok : IsEven nilSize ∧ nilSize ≠ null
  nilStart_ok : IsEven nilStart ∧ nilStart ≠ null
  staticMem_ok : IsEven staticMem ∧ staticMem ≠ null
  fits : staticMem.toNat + staticMemSize ≤ 2 ^ 32
  nilSize_outside : (⟨staticMem, 0, []⟩ : Pool).Outside nilSize
  nilStart_outside : (⟨staticMem, 0, []⟩ : Pool).Outside nilStart

/-- The trees as their constructors leave them. -/
def Statics.newHeap (st : Statics) (mem : Word → Rbt.Node BlockSize)
    (mem' : Word → Rbt.Node BlockStart) : Heap :=
  ⟨Rbt.State.new st.nilSize mem, Rbt.State.new st.nilStart mem', ⟨st.staticMem, 0, []⟩⟩

/-- The static objects of a kernel image that is loaded at 1 MB. -/
def bootStatics : Statics where
  nilSize := 0x100000
  nilStart := 0x100020
  staticMem := 0x100100
  nilSize_ok := by decide
  nilStart_ok := by decide
  staticMem_ok := by decide
  fits := by decide
  nilSize_outside := .inl (by decide)
  nilStart_outside := .inl (by decide)

/-- The block that `kheap_init` inserts. -/
def wholeHeap : Block := ⟨kernelHeapBegin, kernelHeapEnd - kernelHeapBegin⟩

theorem wholeHeap_span : wholeHeap.span = heapSpan := by decide

theorem wholeHeap_proper : wholeHeap.Proper := ⟨by decide, by decide, by decide⟩

theorem Statics.newHeap_frees (st : Statics) (mem : Word → Rbt.Node BlockSize)
    (mem' : Word → Rbt.Node BlockStart) : Frees (st.newHeap mem mem') 0 0 := by
  refine ⟨⟨.nil, .nil, ⟨?_, ?_, rfl⟩, ⟨?_, ?_, rfl⟩, ?_⟩, st.nilSize_outside, st.nilStart_outside⟩
  · exact Rbt.Holds.new st.nilSize_ok.2 st.nilSize_ok.1 mem
  · exact List.Pairwise.nil
  · exact Rbt.Holds.new st.nilStart_ok.2 st.nilStart_ok.1 mem'
  · exact List.Pairwise.nil
  · exact ⟨st.staticMem_ok.1, st.staticMem_ok.2, st.fits, 0, rfl, by decide, List.Perm.refl _⟩

/-- `kheap_init` puts the whole heap into both trees. -/
theorem frees_of_initTrees {st : Statics} {mem : Word → Rbt.Node BlockSize}
    {mem' : Word → Rbt.Node BlockStart} {h : Heap}
    (hrun : initTrees (st.newHeap mem mem') = (.ok (), h)) : Frees h {wholeHeap} {wholeHeap} :=
  (insertFree_triple wholeHeap _ (st.newHeap_frees mem mem')).ok hrun

/-! ## The whole state -/

structure Booted (g : Layout) (s : Kernel) : Prop where
  sound : Sound g True s
  linked : Linked g s
  trees : ∃ (st : Statics) (mem : _) (mem' : _), initTrees (st.newHeap mem mem') = (.ok (), s.heap)
  /-- `kernel_low_ntable` tables are enough for static memory. -/
  staticEnd : s.kheapStaticEnd.toNat ≤ g.low * 2 ^ 22
  dirs : s.dirs = [s.currentPageDir]
  tables : ∀ t ∈ s.tables, t ∈ g.kernel
  user : ∀ i, ¬ g.Shared i → (s.dir s.currentPageDir).tables i = null
  /-- The tables were allocated in static memory, which may end with one of them. -/
  tablesStatic : ∀ t ∈ s.tables, 0x1000 ≤ t.toNat ∧ t.toNat + 0x1000 ≤ s.kheapStaticEnd.toNat
  dirStatic : 0x1000 ≤ s.currentPageDir.toNat ∧
    s.currentPageDir.toNat + 0x2004 ≤ s.kheapStaticEnd.toNat
  /-- Static memory is mapped to itself. -/
  identity : ∀ a, IdentityPage s a → g.slot a ∈ g.identity ∧
    (s.page (g.slot a)).present = true ∧ (s.page (g.slot a)).addr = (a >>> 12).setWidth 20
  entries : ∀ i, (s.dir s.currentPageDir).entries i =
    if (s.dir s.currentPageDir).tables i = null then ⟨false, false, false, 0⟩
    else ⟨true, true, true, ((s.dir s.currentPageDir).tables i >>> 12).setWidth 20⟩
  phyaddr : (s.dir s.currentPageDir).phyaddr = s.currentPageDir + 4096
  scratch : s.emptyPage0Addr = null ∧ s.emptyPage1Addr = null
  unmapped : ∀ a, HeapAddr a → (s.page (g.slot a)).addr = 0

variable {g : Layout} {s : Kernel}

theorem Booted.staticEnd_le (h : Booted g s) : s.kheapStaticEnd.toNat ≤ 0xEFC00000 := by
  have hend := h.staticEnd
  have hlow := h.linked.lowLe
  rw [heapBeginIdx_eq] at hlow
  omega

/-- At first the whole heap is free. -/
theorem Booted.owned (h : Booted g s) : Owned g {wholeHeap} 0 0 s := by
  obtain ⟨st, mem, mem', hrun⟩ := h.trees
  have hdepth : ∀ x, depthOf {wholeHeap} x = heapSpan.at x := fun x => by
    rw [depthOf_singleton, wholeHeap_span]
  have hout : ∀ x, x < 0xEFC00000 → depthOf {wholeHeap} x = 0 := fun x hx => by
    rw [hdepth]
    exact if_neg fun hin => absurd hin.1 (Nat.not_le.mpr hx)
  have hclear : Clear {wholeHeap} s := by
    refine ⟨fun t ht => hout _ ?_, fun d hd k hk => hout _ ?_, fun a ha => hout _ ?_⟩
    · have := h.tablesStatic t ht
      have := h.staticEnd_le
      omega
    · have := h.dirStatic
      have := h.staticEnd_le
      obtain rfl : d = s.currentPageDir := by
        rw [h.dirs] at hd
        exact List.mem_singleton.mp hd
      change k < 8196 at hk
      omega
    have hzero : pageOf a = null := by
      rcases ha with e | e
      · exact e.trans h.scratch.1
      · exact e.trans h.scratch.2
    have hnat := congrArg BitVec.toNat hzero
    rw [toNat_pageOf] at hnat
    change a.toNat / 4096 * 4096 = 0 at hnat
    omega
  have hheap : HeapInv {wholeHeap} s := by
    refine ⟨hclear, frees_of_initTrees hrun, fun b hb => ?_, fun x => ?_⟩
    · rw [Multiset.mem_singleton.mp hb]
      exact wholeHeap_proper
    · rw [hdepth]
      exact Cover.Span.at_le_one _ _
  refine ⟨⟨h.sound, h.linked, hheap⟩, fun a ha b hb => ?_, fun x hx => absurd hx (by simp),
    fun a => ?_, ⟨fun _ _ => rfl, fun _ _ _ _ => rfl, fun _ _ => rfl⟩⟩
  · rw [Multiset.mem_singleton.mp ha, Multiset.mem_singleton.mp hb]
    decide
  · rw [hdepth]
    rfl

/-! ## A machine with less memory -/

/-- The layout when only `frames` of the free frames exist. -/
def Layout.keepFrames (g : Layout) (s : Kernel) (frames : List Frame) : Layout :=
  { g with managed := {f | f ∈ g.managed ∧ (f ∈ s.frames → f ∈ frames)} }

section KeepFrames

variable {g : Layout} {s : Kernel} {frames : List Frame}

theorem FrameInv.keepFrames (h : FrameInv g s) (hsub : frames.Sublist s.frames) :
    FrameInv (g.keepFrames s frames) { s with frames := frames } := by
  refine ⟨h.nodup.sublist hsub, fun f hf => ⟨h.free f (hsub.subset hf), fun _ => hf⟩,
    fun hmem => h.zero hmem.1, h.aligned, fun p hp hid => ?_, fun p hp => ?_,
    fun f hf => h.onStack f (hsub.subset hf), fun f hf hnot => ?_, h.apart0, h.apart1⟩
  · obtain hzero | hmem := h.entry p hp hid
    · exact .inl hzero
    · refine .inr ⟨hmem, fun hfree => ?_⟩
      -- a frame on the stack has no holders
      have hholds : p ∈ holders s (s.page p).addr := ⟨hp, rfl⟩
      rw [h.onStack _ hfree] at hholds
      exact hholds.elim
  · obtain ⟨htable, hunmanaged, hallocable⟩ := h.identity p hp
    exact ⟨htable, fun hmem => hunmanaged hmem.1, hallocable⟩
  · exact h.offStack f hf.1 fun hfree => hnot (hf.2 hfree)

theorem Booted.keepFrames (h : Booted g s) (hsub : frames.Sublist s.frames) :
    Booted (g.keepFrames s frames) { s with frames := frames } := by
  have hl := h.linked
  constructor
  · refine ⟨h.sound.frames.keepFrames hsub, fun p hp => ?_, fun hc p hp => ?_⟩
    · exact h.sound.shaped p ⟨hp.counted, hp.ordinary⟩
    · exact h.sound.exclusive hc p ⟨hp.counted, hp.ordinary⟩
  · exact ⟨hl.finished, hl.heapReady, hl.code, hl.low, hl.lowLe, hl.current, hl.kernel, hl.inj,
      hl.shared, ⟨hl.owned.own, hl.owned.unique⟩, hl.identity, hl.scratch0, hl.scratch1⟩
  · exact h.trees
  · exact h.staticEnd
  · exact h.dirs
  · exact h.tables
  · exact h.user
  · exact h.tablesStatic
  · exact h.dirStatic
  · exact h.identity
  · exact h.entries
  · exact h.phyaddr
  · exact h.scratch
  · exact h.unmapped

end KeepFrames

end Jkos.Page
