import Jkos.Page.Spaces

/-!
# Free frames

No function but `free` puts a frame on the stack, and none writes to a frame that is there.
So a frame that is allocated still holds what it held when the stack was last filled.
-/

namespace Jkos.Page

open Exec Kheap

variable {g : Layout} {c : Prop} {K : Set Slot} {s s' s'' t : Kernel} {p : Slot} {f : Frame}
  {F F' : Multiset Block} {d a dest eip : Word} {v : Byte} {vs : List Byte} {write : Bool}

/-- The free frames were free before, and hold what they held. -/
def Quiet (s s' : Kernel) : Prop := ∀ f ∈ s'.frames, f ∈ s.frames ∧ s'.phys f = s.phys f

namespace Quiet

theorem refl : Quiet s s := fun _ hf => ⟨hf, rfl⟩

theorem trans (h : Quiet s s') (h' : Quiet s' s'') : Quiet s s'' := by
  intro f hf
  obtain ⟨hf', hphys'⟩ := h' f hf
  obtain ⟨hf, hphys⟩ := h f hf'
  exact ⟨hf, hphys'.trans hphys⟩

theorem of_eq (hframes : s'.frames = s.frames) (hphys : s'.phys = s.phys) : Quiet s s' := by
  intro f hf
  rw [hframes] at hf
  exact ⟨hf, congrFun hphys f⟩

/-- A frame that is not free may change. -/
theorem setFrame (h : Quiet s s') (hf : f ∉ s'.frames) (bytes : BitVec 12 → Byte) :
    Quiet s (s'.setFrame f bytes) := by
  intro f' hf'
  change f' ∈ s'.frames at hf'
  obtain ⟨hmem, hphys⟩ := h f' hf'
  have hne : f' ≠ f := fun e => hf (e ▸ hf')
  exact ⟨hmem, (if_neg hne).trans hphys⟩

end Quiet

/-- Taking the top of the stack for an entry. -/
theorem taken_quiet {rest : List Frame} (top : s.frames = f :: rest) (user writable : Bool) :
    Quiet s (taken s p f rest user writable) := by
  intro f' hf'
  change f' ∈ rest at hf'
  rw [top]
  exact ⟨List.mem_cons_of_mem f hf', rfl⟩

theorem fillUint32_quiet (h : Quiet s s') (hf : (s'.page p).addr ∉ s'.frames) (val : Word) :
    Quiet s (fillUint32 p val s').2 := by
  rw [fillUint32_apply]
  exact (h.trans (.of_eq rfl rfl)).setFrame hf _

theorem Resolved.quiet (h : Resolved p s s') (hs : FrameInv g s) : Quiet s s' := by
  have htop : ∀ {f : Frame} {rest : List Frame}, s.frames = f :: rest → f ∉ rest := by
    intro f rest top
    have hnodup := hs.nodup
    rw [top] at hnodup
    exact (List.nodup_cons.mp hnodup).1
  cases h with
  | @lazy f rest zero top =>
      have htaken := taken_quiet (p := p) top (s.page p).user (s.page p).rw
      simp only [faultIn]
      split
      · refine fillUint32_quiet htaken ?_ 0
        rw [page_taken]
        exact htop top
      · exact htaken
  | upgrade user held one => exact .of_eq rfl rfl
  | @copy f rest user held many top =>
      have hmoved : Quiet s (moved s p f rest) := by
        intro f' hf'
        change f' ∈ rest at hf'
        rw [top]
        exact ⟨List.mem_cons_of_mem f hf', rfl⟩
      rw [copied, copyPagePhysical_apply]
      exact (hmoved.trans (.of_eq rfl rfl)).setFrame (htop top) _

theorem Faults.quiet (h : Faults p s s') (hs : Sound g c s) (hp : Editable g s p) :
    Quiet s s' := by
  induction h with
  | refl => exact .refl
  | tail hchain hstep ih =>
      have hw := Faults.work (K := {p}) hchain hs rfl hp
      exact ih.trans (hstep.quiet (hw.steps.sound hs).frames)

theorem writeByte_quiet (hs : Sound g c s) (hlook : lookup s s.currentPageDir a = some p)
    (hp : Editable g s p) (hgrant : Granted s p true eip) :
    Ends (writeByte a v eip) s (fun _ s' => Quiet s s') (fun e _ => e = .noFreeFrame) := by
  refine Ends.bind (access_ends hs hlook hp hgrant) fun f s₁ hacc => ?_
  have hw := hacc.faults.work (K := {p}) hs rfl hp
  have hheld : (s₁.page p).addr ≠ 0 := hacc.addr ▸ hacc.held
  have hbusy := ((hw.steps.editable hp).held (hw.steps.sound hs).frames hheld).2
  rw [hacc.addr] at hbusy
  exact (hacc.faults.quiet hs hp).setFrame hbusy _

/-- Writes of kernel code to pages that are open to it. -/
theorem store_quiet (hs : Sound g c s)
    (hready : ∀ k < vs.length,
      Ready g s (dest + BitVec.ofNat 32 k) true (s.kernelCodeEnd - 1)) :
    Ends (store dest vs) s (fun _ s' => Quiet s s') (fun e _ => e = .noFreeFrame) := by
  induction vs generalizing s dest with
  | nil => exact Quiet.refl
  | cons v vs ih =>
      have hfirst := hready 0 (by simp)
      rw [show dest + BitVec.ofNat 32 0 = dest by simp] at hfirst
      obtain ⟨p, hlook, hp, hgrant, -⟩ := hfirst
      refine (Ends.bind_of_ok (x := kernelEip) rfl).mpr (Ends.bind
        ((writeByte_ends hs hlook hp v hgrant).and (writeByte_quiet hs hlook hp hgrant)) ?_)
      rintro - s₁ ⟨⟨htouch, -⟩, hquiet⟩
      refine (@ih s₁ (dest + 1) (htouch.work.steps.sound hs) fun k hk => ?_).mono
        (fun _ _ h => hquiet.trans h) (fun _ _ h => h)
      rw [add_one_add, htouch.work.codeEnd_eq]
      exact htouch.ready (hready (k + 1) (by simpa using hk))

/-! ## Memory that the kernel takes -/

/-- Opening pages takes no frames. -/
theorem openPages_quiet (kmalloc : Word → Nat → Prog Word) {lo hi : Word} (hl : Linked g s)
    (halign : pageOf lo = lo ∧ pageOf hi = hi)
    (hheap : ∀ i, pageOf i = i → lo ≤ i → i < hi → HeapAddr i) :
    Ends (lazyAllocIntervalWith kmalloc s.currentPageDir lo hi false true false) s
      (fun _ s' => Quiet s s') (fun _ _ => False) := by
  let I : Word → Kernel → Prop := fun _ s' =>
    s'.dir = s.dir ∧ s'.frames = s.frames ∧ s'.phys = s.phys
  refine (interval_ends I ⟨rfl, rfl, rfl⟩ (fun i s₁ hi' hle hlt h => ?_)
    (fun h => h halign)).mono ?_ (fun _ _ h => h)
  · obtain ⟨hdir, hframes, hphys⟩ := h
    have hlook : lookup s₁ s.currentPageDir i = some (g.slot i) := by
      rw [lookup, hdir]
      exact (hl.lookup_heap hl.current (hheap i hi' hle hlt)).1
    rw [Ends.bind_of_ok (getPageWith_of_lookup hlook)]
    exact .of_ok (lazyAlloc_noFill s₁ (g.slot i) false true) ⟨hdir, hframes, hphys⟩
  · rintro - s' ⟨-, -, -, hframes, hphys⟩
    exact .of_eq hframes hphys

section Kmalloc

variable {size start : Word} {palign : Nat} {got : Block}

theorem commit_quiet (kmalloc : Word → Nat → Prog Word) (h : Valid g c F s) {h' : Heap}
    (hfrees : Frees h' F' F') (hres : Reserved F F' size palign start got) :
    Ends (commit kmalloc size (start, got)) { s with heap := h' } (fun _ s' => Quiet s s')
      (fun _ _ => True) := by
  have hvalid := h.reserve hfrees hres
  have hquiet := openPages_quiet kmalloc hvalid.linked
    ⟨pageOf_pageOf (start - sizeofBlock), pageOf_getAligned (start + size)⟩
    fun i hi h₁ h₂ => (reserved_pages hres h.heap i hi h₁ h₂).1
  rw [commit, Ends.bind_read]
  refine Ends.bind (((openBlock_ends kmalloc h hfrees hres).and hquiet).mono (fun _ _ h => h)
    (fun _ _ h => h.elim)) ?_
  rintro - s₁ ⟨⟨hwork, -, hopened⟩, hquiet₁⟩
  have hvalid₁ := hvalid.work hwork
  have hready := header_ready hvalid₁ hres hopened
  refine Ends.bind ((store_quiet hvalid₁.sound fun k hk => (hready k hk).2.2).mono
    (fun _ _ h => h) (fun _ _ _ => trivial)) ?_
  rintro - s₂ hquiet₂
  have hfirst : Quiet s { s with heap := h' } := .of_eq rfl rfl
  exact hfirst.trans (hquiet₁.trans hquiet₂)

theorem kmallocWith_quiet (kmalloc : Word → Nat → Prog Word) (h : Valid g c F s)
    (hsize : size.toNat + 8 < 2 ^ 32) (hpalign : palign ≤ 22) :
    Ends (kmallocWith kmalloc size palign) s (fun _ s' => Quiet s s') (fun _ _ => True) := by
  rw [Ends, kmallocWith_eq kmalloc h.linked.heapReady, ← Ends]
  refine Ends.bind ((onHeap_reserve_ends h fun b hb => h.chosen_fits hsize hpalign hb).mono
    (fun _ _ h => h) fun _ _ _ => trivial) ?_
  rintro ⟨start, got⟩ s₁ ⟨h', F', hfrees, hres, -, rfl⟩
  exact commit_quiet kmalloc h hfrees hres

end Kmalloc

/-- Writes of the kernel to memory that it has got from `kmalloc`. -/
theorem memset_quiet {start : Word} {n : Nat} (hs : Sound g c s) (hl : Linked g s)
    (hfits : start.toNat + n ≤ 2 ^ 32) (hopen : OpenRange g s start n) (val : Byte) :
    Ends (memset start val n) s (fun _ s' => Quiet s s') (fun e _ => e = .noFreeFrame) := by
  rw [memset_eq_store]
  refine store_quiet hs fun k hk => ?_
  rw [List.length_replicate] at hk
  have haddr := toNat_add_ofNat hfits hk
  obtain ⟨hheap, hscratch, hopen'⟩ := hopen (start + BitVec.ofNat 32 k) (by omega) (by omega)
  exact ⟨_, (hl.lookup_heap hl.current hheap).1, hl.editable_heap hheap hscratch,
    hopen'.granted (kernelEip_lt hl.code) true, hopen'.copyable⟩

/-- `get_physical_addr` that allocates nothing changes nothing. -/
theorem getPhysicalAddr_quiet (d a : Word) (user writable : Bool) :
    Ends (getPhysicalAddr d a false user writable) s (fun _ s' => s' = s) (fun _ _ => False) := by
  rw [getPhysicalAddr, Ends.bind_read]
  split
  · rfl
  · rw [Ends.bind_read]
    split
    · rfl
    · rw [Ends.bind_read]
      split <;> rfl

/-- A table for an index that has none. -/
theorem newTable_quiet (h : Running g c F s) (hi : ¬ g.Shared (tbIdx a))
    (hnull : (s.dir d).tables (tbIdx a) = null) :
    Ends (getPageWith kmalloc d a) s (fun _ s' => Quiet s s') (fun _ _ => True) := by
  rw [getPageWith, Ends.bind_read, if_pos hnull]
  refine Ends.bind (((kmalloc_ends h.toValid (by decide) (by decide)).mono (fun _ _ h => h)
    fun _ _ _ => trivial).and (kmallocWith_quiet _ h.toValid (by decide) (by decide))) ?_
  rintro t s₁ ⟨⟨F', got, hm⟩, hquiet₁⟩
  have hgrown := hm.linkTable h hi d
  have hbounds := hm.heapAddr
  rw [show sizeofTable.toNat = 4096 from rfl] at hbounds
  have hopen := newTable_open hm h hgrown rfl
  refine (Ends.bind_of_ok (modify_apply _ _)).mpr ((Ends.bind_of_ok (modify_apply _ _)).mpr ?_)
  refine Ends.bind ((memset_quiet hgrown.valid.sound hgrown.valid.linked
    (by rw [show sizeofTable.toNat = 4096 from rfl]; omega) hopen 0).mono
    (fun _ _ h => h) fun _ _ _ => trivial) ?_
  rintro - s₂ hquiet₂
  have hlinked : Quiet s₁ ((newTable t s₁).2.setDir d (·.setTable (tbIdx a) t)) := .of_eq rfl rfl
  have hquiet : Quiet s s₂ := hquiet₁.trans (hlinked.trans hquiet₂)
  rw [Ends.bind_read]
  refine Ends.bind ((getPhysicalAddr_quiet _ _ _ _).mono (fun _ _ h => h) fun _ _ h => h.elim) ?_
  rintro phys _ rfl
  exact hquiet.trans (.of_eq rfl rfl)

theorem getPage_quiet (h : Running g c F s) (hd : d ∈ s.dirs) (a : Word) :
    Ends (getPageWith kmalloc d a) s (fun _ s' => Quiet s s') (fun _ _ => True) := by
  cases hlook : lookup s d a with
  | some p => exact .of_ok (getPageWith_of_lookup hlook) .refl
  | none =>
      have hnull : (s.dir d).tables (tbIdx a) = null := by
        by_contra hne
        rw [lookup, if_neg hne] at hlook
        cases hlook
      exact newTable_quiet h (fun hi => (h.linked.kernel _ hi).2
        ((h.linked.shared d hd _ hi).symm.trans hnull)) hnull

theorem alloc_quiet (p : Slot) (user writable : Bool) :
    Ends (alloc p user writable) s (fun _ s' => Quiet s s') (fun _ _ => True) := by
  refine (alloc_ends s p user writable).mono ?_ (fun _ _ _ => trivial)
  rintro - s' (⟨-, rfl⟩ | ⟨-, f, rest, top, rfl⟩)
  · exact .of_eq rfl rfl
  · exact taken_quiet top user writable

theorem lazyAlloc_quiet (hs : FrameInv g s) (hp : Editable g s p) (user writable : Bool) :
    Ends (lazyAlloc p user writable true) s (fun _ s' => Quiet s s') (fun _ _ => False) := by
  by_cases hzero : (s.page p).addr = 0
  · exact .of_ok (lazyAlloc_of_zero hzero user writable true) (.of_eq rfl rfl)
  · refine .of_ok (lazyAlloc_of_held hzero user writable) (fillUint32_quiet (.of_eq rfl rfl) ?_ 0)
    rw [Kernel.page_setEntry_self]
    exact (hp.held hs hzero).2

end Jkos.Page
