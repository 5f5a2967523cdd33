import Jkos.Kheap.Reject
import Jkos.Page.System

/-!
# `kfree` of pointers that it should not get

The header in front of a pointer may be stale or overwritten. `kfree` reads it, at most
taking page faults on the way, and then works with whatever it has found. In every state
that the kernel reaches, the free blocks are such that the checks of `release` decide.
-/

namespace Jkos.Page

open Exec Kheap

variable {g : Layout} {s s' s₀ s₁ : Kernel} {r : Kernel} {p : Slot} {F : Multiset Block}
  {addr eip : Word}

/-! ## Reading the header -/

/-- The part of the kernel that accesses to memory leave alone. -/
def RestIs (r s : Kernel) : Prop := s.rest = r

theorem fillUint32_keeps (p : Slot) (val : Word) : Keeps (RestIs r) (fillUint32 p val) :=
  keeps_modify fun _ h => h

theorem alloc_keeps (p : Slot) (user writable : Bool) :
    Keeps (RestIs r) (alloc p user writable) := by
  intro s h
  by_cases hzero : (s.page p).addr = 0
  · cases hf : s.frames with
    | nil =>
        rw [alloc_of_nil hzero hf]
        exact h
    | cons f frames =>
        rw [alloc_of_cons hzero hf]
        exact h
  · rw [alloc_of_held hzero]
    exact h

theorem pageFault_keeps (addr errCode eip : Word) :
    Keeps (RestIs r) (pageFault addr errCode eip) := by
  refine keeps_bind (keeps_read _) fun d => keeps_bind (keeps_read _) fun o => ?_
  cases o with
  | none => exact keeps_throw _
  | some p =>
      refine keeps_bind (keeps_read _) fun e => keeps_bind (keeps_read _) fun codeEnd => ?_
      refine keeps_ite (fun _ => keeps_throw _) fun _ => keeps_ite (fun _ => ?_) fun _ =>
        keeps_ite (fun _ => ?_) fun _ => keeps_throw _
      · refine keeps_bind (alloc_keeps p _ _) fun _ => keeps_bind (keeps_read _) fun _ => ?_
        exact keeps_ite (fun _ => fillUint32_keeps p 0) fun _ => keeps_pure _
      · refine keeps_bind (keeps_read _) fun n => keeps_ite (fun _ => keeps_throw _) fun _ =>
          keeps_ite (fun _ => keeps_modify fun _ h => h) fun _ => ?_
        refine keeps_bind (keeps_modify fun _ h => h) fun _ => keeps_bind (alloc_keeps p _ _)
          fun _ => keeps_bind (keeps_read _) fun _ => ?_
        exact keeps_modify fun _ h => h

theorem accessLoop_keeps (addr : Word) (write : Bool) (eip : Word) (fuel : Nat) :
    Keeps (RestIs r) (accessLoop addr write eip fuel) := by
  induction fuel with
  | zero => exact keeps_throw _
  | succ fuel ih =>
      refine keeps_bind (keeps_read _) fun w => ?_
      cases w with
      | ok f => exact keeps_pure f
      | error errCode => exact keeps_bind (pageFault_keeps addr errCode eip) fun _ => ih

theorem load_keeps (src : Word) (cnt : Nat) : Keeps (RestIs r) (load src cnt) := by
  induction cnt generalizing src with
  | zero => exact keeps_pure _
  | succ cnt ih =>
      refine keeps_bind (keeps_read _) fun eip => keeps_bind ?_ fun v => keeps_bind (ih _)
        fun vs => keeps_pure _
      exact keeps_bind (accessLoop_keeps src false eip loopBound) fun _ => keeps_read _

/-- Reading memory changes nothing of the heap. -/
theorem load_heap {src : Word} {cnt : Nat} {vs : List Byte} {u : Kernel}
    (hload : load src cnt s = (.ok vs, u)) : u.heap = s.heap := by
  have hrest := load_keeps (r := s.rest) src cnt s rfl
  rw [hload] at hrest
  exact (congrArg Kernel.heap hrest :)

variable {vs : List Byte} {u : Kernel}

/-- A header that `release` rejects stops `kfree`. -/
theorem kfree_rejects {E : Fault → Heap → Prop} (hF : Frees s.heap F F)
    (hload : load (addr - sizeofBlock) 8 s = (.ok vs, u))
    (hreject : Triple (Frees · F F) (release addr (Block.ofBytes vs)) (fun _ _ => False) E) :
    ∃ e s', kfree addr s = (.error e, s') ∧ E e s'.heap := by
  have hends := hreject u.heap (by rw [load_heap hload]; exact hF)
  have hrun := onHeap_ends hends
  cases hr : onHeap (release addr (Block.ofBytes vs)) u with
  | mk res t =>
      cases res with
      | ok a =>
          obtain ⟨h', hfalse, -⟩ := hrun.ok hr
          exact hfalse.elim
      | error e =>
          refine ⟨e, t, ?_, hrun.error hr⟩
          rw [kfree, bind_ok hload]
          exact bind_error hr

/-- `free_interval` on whole pages returns. -/
theorem freeInterval_returns {d start stop : Word}
    (halign : pageOf start = start ∧ pageOf stop = stop) :
    ∃ s', freeInterval d start stop s = (.ok (), s') := by
  have hends : Ends (freeInterval d start stop) s (fun _ s' => ∃ j : Word, stop ≤ j ∧ True)
      (fun _ _ => False) := by
    refine interval_ends (fun _ _ => True) trivial (fun i s₁ _ _ _ _ => ?_) fun h => h halign
    rw [Ends.bind_read]
    cases lookup s₁ d i with
    | none => exact trivial
    | some p =>
        change Ends (read (·.page p) >>= _) s₁ _ _
        rw [Ends.bind_read]
        split
        · exact trivial
        · exact trivial
  obtain ⟨⟨⟩, s', hrun, -⟩ := hends.returns fun _ _ h => h
  exact ⟨s', hrun⟩

/-- With a header that `release` accepts, `kfree` returns. -/
theorem kfree_returns (hF : Frees s.heap F F)
    (hload : load (addr - sizeofBlock) 8 s = (.ok vs, u))
    (haccept : Triple (Frees · F F) (release addr (Block.ofBytes vs)) (fun _ _ => True)
      (fun _ _ => False)) : ∃ s', kfree addr s = (.ok (), s') := by
  have hends := haccept u.heap (by rw [load_heap hload]; exact hF)
  obtain ⟨⟨freeStart, freeEnd⟩, t, hrun, -⟩ := (onHeap_ends hends).returns fun _ _ h => h
  obtain ⟨s', hfree⟩ := freeInterval_returns (s := t) (d := t.currentPageDir)
    ⟨pageOf_getAligned freeStart, pageOf_pageOf freeEnd⟩
  refine ⟨s', ?_⟩
  rw [kfree, bind_ok hload, bind_ok hrun]
  exact hfree

/-! ## Stale headers -/

variable (s₀ s₁) in
/-- A header that `kmalloc` writes at some time, from booting on. -/
def Wrote (b : Block) : Prop :=
  ∃ τ : HeapSystem, (HeapRuns ⟨s₀, 0⟩ τ ∨ MemRuns ⟨s₁, 0⟩ τ) ∧
    ∃ (size ptr : Word) (palign : Nat) (t : Kernel), size.toNat + 8 < 2 ^ 32 ∧ palign ≤ 22 ∧
      kmalloc size palign τ.kernel = (.ok ptr, t) ∧ recorded t ptr = b

theorem proper_of_kmalloc {τ : HeapSystem} {own : Multiset Block} {size ptr : Word} {palign : Nat}
    (h : Owned g F τ.live own τ.kernel) (hsize : size.toNat + 8 < 2 ^ 32) (hpalign : palign ≤ 22)
    (hrun : kmalloc size palign τ.kernel = (.ok ptr, s)) : (recorded s ptr).Proper := by
  have hstep : HeapStep τ ⟨s, ⟨ptr, size⟩ ::ₘ τ.live⟩ := .kmalloc hsize hpalign hrun
  obtain ⟨F', hown⟩ := hstep.owned h
  exact (hown.chunks ⟨ptr, size⟩ (Multiset.mem_cons_self _ _)).proper

theorem Wrote.proper {b : Block} (h : Wrote s₀ s₁ b) (hboot : Booted g s₀)
    (hinit : initEmptyPages s₀ = (.ok (), s₁)) : b.Proper := by
  obtain ⟨τ, hτ, size, ptr, palign, t, hsize, hpalign, hrun, rfl⟩ := h
  obtain hτ | hτ := hτ
  · obtain ⟨F, hown⟩ := hτ.owned hboot.owned
    exact proper_of_kmalloc hown hsize hpalign hrun
  · obtain ⟨F, own, hown⟩ := (hτ.started ((initEmptyPages_ends hboot).ok hinit).1).owned
    exact proper_of_kmalloc hown hsize hpalign hrun

/-- The free blocks of a state that the kernel reaches. -/
theorem MemRuns.free {σ : HeapSystem} (hrun : MemRuns ⟨s₁, 0⟩ σ) (hboot : Booted g s₀)
    (hinit : initEmptyPages s₀ = (.ok (), s₁)) (hF : Frees σ.kernel.heap F F) :
    (∀ b ∈ F, b.Proper) ∧ ∀ x, depthOf F x ≤ 1 := by
  obtain ⟨F', own, hown⟩ := (hrun.started ((initEmptyPages_ends hboot).ok hinit).1).owned
  obtain rfl := hF.unique hown.valid.heap.frees
  exact ⟨hown.valid.heap.proper, hown.valid.heap.once⟩

theorem MemRuns.exists_free {σ : HeapSystem} (hrun : MemRuns ⟨s₁, 0⟩ σ) (hboot : Booted g s₀)
    (hinit : initEmptyPages s₀ = (.ok (), s₁)) : ∃ F, Frees σ.kernel.heap F F := by
  obtain ⟨F, own, hown⟩ := (hrun.started ((initEmptyPages_ends hboot).ok hinit).1).owned
  exact ⟨F, hown.valid.heap.frees⟩

/-- A header that was written once is rejected while its block is not wholly in use. -/
theorem kfree_detects_stale {σ : HeapSystem} {b : Block} {x : Nat}
    (hboot : Booted g s₀) (hinit : initEmptyPages s₀ = (.ok (), s₁))
    (hrun : MemRuns ⟨s₁, 0⟩ σ) (hwrote : Wrote s₀ s₁ b) (hF : Frees σ.kernel.heap F F)
    (hload : load (addr - sizeofBlock) 8 σ.kernel = (.ok vs, u)) (hb : Block.ofBytes vs = b)
    (hlo : b.start.toNat ≤ x) (hhi : x < b.stop) (hx : depthOf F x ≠ 0) :
    ∃ s', kfree addr σ.kernel = (.error (.invalidFree addr), s') ∧
      ∃ F' ≤ F, Frees s'.heap F' F' := by
  obtain ⟨hproper, honce⟩ := hrun.free hboot hinit hF
  have hblk := hwrote.proper hboot hinit
  have hfit : b.stop < 2 ^ 32 := by
    have hend := hblk.hi
    rw [Block.stop]
    omega
  have hreject : Triple (Frees · F F) (release addr b) (fun _ _ => False) (Rejected addr F) :=
    release_rejects hproper honce hfit fun h => hx (h.apart x hlo hhi)
  obtain ⟨e, s', hkfree, rfl, F', hle, hs'⟩ := kfree_rejects hF hload (by rw [hb]; exact hreject)
  exact ⟨s', hkfree, F', hle, hs'⟩

/-- What has just been freed is free. -/
theorem MemRuns.kfree_free {live : Multiset Chunk} {y : Chunk}
    (hrun : MemRuns ⟨s₁, 0⟩ ⟨s, y ::ₘ live⟩) (hboot : Booted g s₀)
    (hinit : initEmptyPages s₀ = (.ok (), s₁)) (hfree : kfree y.ptr s = (.ok (), s')) :
    ∃ F, Frees s'.heap F F ∧ depthOf F (recorded s y.ptr).start.toNat ≠ 0 := by
  obtain ⟨F, own, hown⟩ := (hrun.started ((initEmptyPages_ends hboot).ok hinit).1).owned
  have hown : Owned g F (y ::ₘ live) own s := hown
  obtain ⟨F', freeStart, freeEnd, hf⟩ := (kfree_ends hown.valid hown.allocated).ok hfree
  refine ⟨F', hf.valid.heap.frees, ?_⟩
  have hpos := (hown.chunks y (Multiset.mem_cons_self _ _)).proper.pos
  have hself : (recorded s y.ptr).span.at (recorded s y.ptr).start.toNat = 1 :=
    Cover.Span.at_of_mem ⟨Nat.le_refl _, by simp only [Block.span]; omega⟩
  rw [hf.released.depth, hself]
  exact Nat.succ_ne_zero _

/-- The boot kernel after a call of `kmalloc`, and after a call of `kfree`. -/
@[irreducible] def bootTaken : Kernel := (kmalloc 100 0 bootStarted).2

@[irreducible] def bootGiven : Kernel := (kfree 0xEFC00008 bootTaken).2

/-- A client writes a byte of its memory. -/
def forge (a : Word) (v : Byte) (s : Kernel) : Kernel := (writeByte a v 0x100000 s).2

/-- The boot kernel after a client has put a header of its own into its memory: a block that
starts at the end of the heap and has `2 ^ 31` bytes. -/
@[irreducible] def bootForged : Kernel :=
  forge 0xEFC00017 0x80 (forge 0xEFC00013 0xFF (forge 0xEFC00012 0xC0 bootTaken))

/-- The results of the two calls, and the headers behind them. The writes succeed as well;
`kfree` reads what they have written, and returns. -/
theorem bootTaken_calls :
    ((kmalloc 100 0 bootStarted).1.toOption = some 0xEFC00008 ∧
      recorded bootTaken 0xEFC00008 = ⟨0xEFC00000, 108⟩ ∧
      (load (0xEFC00008 - sizeofBlock) 8 bootTaken).1.toOption =
        some (Block.bytes ⟨0xEFC00000, 108⟩)) ∧
    ((kfree 0xEFC00008 bootTaken).1.toOption = some () ∧
      (load (0xEFC00008 - sizeofBlock) 8 bootGiven).1.toOption =
        some (Block.bytes ⟨0xEFC00000, 108⟩)) ∧
    ((0x100000 : Word) < bootTaken.kernelCodeEnd ∧
      (writeByte 0xEFC00012 0xC0 0x100000 bootTaken).1.toOption = some ()) ∧
    ((0x100000 : Word) < (forge 0xEFC00012 0xC0 bootTaken).kernelCodeEnd ∧
      (writeByte 0xEFC00013 0xFF 0x100000 (forge 0xEFC00012 0xC0 bootTaken)).1.toOption =
        some ()) ∧
    ((0x100000 : Word) <
        (forge 0xEFC00013 0xFF (forge 0xEFC00012 0xC0 bootTaken)).kernelCodeEnd ∧
      (writeByte 0xEFC00017 0x80 0x100000
        (forge 0xEFC00013 0xFF (forge 0xEFC00012 0xC0 bootTaken))).1.toOption = some ()) ∧
    (load (0xEFC00018 - sizeofBlock) 8 bootForged).1.toOption =
      some (Block.bytes ⟨0xFFC00000, 0x80000000⟩) ∧
    (kfree 0xEFC00018 bootForged).1.toOption = some () := by
  decide +kernel

theorem bootTaken_run : kmalloc 100 0 bootStarted = (.ok 0xEFC00008, bootTaken) := by
  rw [bootTaken]
  exact eq_ok_of_toOption bootTaken_calls.1.1

theorem bootGiven_run : kfree 0xEFC00008 bootTaken = (.ok (), bootGiven) := by
  rw [bootGiven]
  exact eq_ok_of_toOption bootTaken_calls.2.1.1

theorem bootTaken_runs : MemRuns ⟨bootStarted, 0⟩ ⟨bootTaken, ⟨0xEFC00008, 100⟩ ::ₘ 0⟩ :=
  .single (.heap (.kmalloc (by decide) (Nat.zero_le 22) bootTaken_run))

theorem bootGiven_runs : MemRuns ⟨bootStarted, 0⟩ ⟨bootGiven, 0⟩ :=
  bootTaken_runs.tail (.heap (.kfree (x := ⟨0xEFC00008, 100⟩) bootGiven_run))

theorem bootTaken_header : recorded bootTaken 0xEFC00008 = ⟨0xEFC00000, 108⟩ :=
  bootTaken_calls.1.2.1

theorem bootGiven_load : (load (0xEFC00008 - sizeofBlock) 8 bootGiven).1.toOption =
    some (Block.bytes ⟨0xEFC00000, 108⟩) :=
  bootTaken_calls.2.1.2

/-- The second call of `kfree` for one pointer. -/
theorem bootGiven_stale : ∃ s',
    kfree 0xEFC00008 bootGiven = (.error (.invalidFree 0xEFC00008), s') ∧
    ∃ F, Frees bootGiven.heap F F ∧ ∃ F' ≤ F, Frees s'.heap F' F' := by
  obtain ⟨F, hF, hx⟩ := bootTaken_runs.kfree_free bootKernel_booted bootStarted_run bootGiven_run
  have hwrote : Wrote bootKernel bootStarted ⟨0xEFC00000, 108⟩ :=
    ⟨⟨bootStarted, 0⟩, .inr .refl, 100, 0xEFC00008, 0, bootTaken, by decide, Nat.zero_le 22,
      bootTaken_run, bootTaken_header⟩
  rw [bootTaken_header] at hx
  obtain ⟨s', hrun, F', hle, hs'⟩ := kfree_detects_stale bootKernel_booted bootStarted_run
    bootGiven_runs hwrote hF (eq_ok_of_toOption bootGiven_load) (ofBytes_bytes _) (Nat.le_refl _)
    (by decide) hx
  exact ⟨s', hrun, F, hF, F', hle, hs'⟩

/-! ## Headers with any contents -/

/-- `kfree` returns only for a block that may become free, and panics otherwise. -/
def Guarded (F : Multiset Block) (blk : Block) (addr : Word) (s : Kernel) : Prop :=
  Returnable F blk ∨ ∃ e s', kfree addr s = (.error e, s') ∧ e ≠ .diverge

/-- The end of the block does not wrap, or another check stops it. -/
def Caught (F : Multiset Block) (blk : Block) : Prop :=
  blk.stop < 2 ^ 32 ∨ blk.start < kernelHeapBegin ∨ kernelHeapEnd < blk.start + blk.size ∨
    StartsFree F blk ∨ LastNode F blk

theorem Caught.wraps {blk : Block} (h : ¬ Caught F blk) :
    Wraps blk ∧ ¬ StartsFree F blk ∧ ¬ LastNode F blk := by
  rw [Caught, not_or, not_or, not_or, not_or, Nat.not_lt] at h
  obtain ⟨hover, hlo, hhi, hfree, hlast⟩ := h
  exact ⟨wraps_of_passes hover (not_or.mpr ⟨hlo, hhi⟩), hfree, hlast⟩

/-- In every reachable state and for every header, the checks of `kfree` do what they are
for exactly if the end of the block does not wrap or another check stops it. -/
theorem kfree_guarded_iff {σ : HeapSystem} (hboot : Booted g s₀)
    (hinit : initEmptyPages s₀ = (.ok (), s₁)) (hrun : MemRuns ⟨s₁, 0⟩ σ)
    (hF : Frees σ.kernel.heap F F)
    (hload : load (addr - sizeofBlock) 8 σ.kernel = (.ok vs, u)) :
    Guarded F (Block.ofBytes vs) addr σ.kernel ↔ Caught F (Block.ofBytes vs) := by
  obtain ⟨hproper, honce⟩ := hrun.free hboot hinit hF
  have hinvalid : ∀ e h, Rejected addr F e h → e ≠ .diverge := by
    rintro e h ⟨rfl, -⟩
    exact fun e => Fault.noConfusion e
  constructor
  · intro hguard
    by_contra hnot
    obtain ⟨hwraps, hfree, hlast⟩ := Caught.wraps hnot
    obtain ⟨s', hok⟩ := kfree_returns hF hload
      (release_accepts hproper honce hwraps hfree hlast)
    obtain hret | ⟨e, t, herr, -⟩ := hguard
    · have hhi := hret.hi
      have hover := hwraps.beyond
      rw [kernelHeapEnd_eq] at hhi
      change _ ≤ 0xFFC00000 at hhi
      omega
    · rw [hok] at herr
      cases herr
  · intro hcaught
    by_cases hret : Returnable F (Block.ofBytes vs)
    · exact .inl hret
    refine .inr (kfree_rejects (E := fun e _ => e ≠ .diverge) hF hload ?_)
    by_cases hfit : (Block.ofBytes vs).stop < 2 ^ 32
    · exact (release_rejects hproper honce hfit hret).weaken (fun _ h => h) (fun _ _ h => h)
        hinvalid
    by_cases hrange : (Block.ofBytes vs).start < kernelHeapBegin ∨
        (Block.ofBytes vs).start + (Block.ofBytes vs).size > kernelHeapEnd
    · rw [release, if_pos hrange]
      exact fun h _ e => Fault.noConfusion e
    · have hstop := hcaught.resolve_left hfit
      have hwraps := wraps_of_passes (Nat.not_lt.mp hfit) hrange
      rw [not_or] at hrange
      exact release_stops hproper honce hwraps
        ((hstop.resolve_left hrange.1).resolve_left hrange.2)

theorem bootTaken_load : (load (0xEFC00008 - sizeofBlock) 8 bootTaken).1.toOption =
    some (Block.bytes ⟨0xEFC00000, 108⟩) :=
  bootTaken_calls.1.2.2

/-- The header that `kmalloc` has just written is one of those that `kfree` handles. -/
theorem bootTaken_guarded : ∃ F, Frees bootTaken.heap F F ∧
    Guarded F (Block.ofBytes (Block.bytes ⟨0xEFC00000, 108⟩)) 0xEFC00008 bootTaken := by
  obtain ⟨F, hF⟩ := bootTaken_runs.exists_free bootKernel_booted bootStarted_run
  refine ⟨F, hF, (kfree_guarded_iff bootKernel_booted bootStarted_run bootTaken_runs hF
    (eq_ok_of_toOption bootTaken_load)).mpr (.inl ?_)⟩
  rw [ofBytes_bytes]
  decide

theorem forge_runs {a : Word} {v : Byte} (hrun : MemRuns ⟨s₁, 0⟩ ⟨s, ⟨0xEFC00008, 100⟩ ::ₘ 0⟩)
    (ha : 0xEFC00008 ≤ a.toNat ∧ a.toNat < 0xEFC0006C)
    (hcode : (0x100000 : Word) < s.kernelCodeEnd)
    (hok : (writeByte a v 0x100000 s).1.toOption = some ()) :
    MemRuns ⟨s₁, 0⟩ ⟨forge a v s, ⟨0xEFC00008, 100⟩ ::ₘ 0⟩ :=
  hrun.tail (.heap (.write (Multiset.mem_cons_self _ _) ha.1 ha.2 hcode (eq_ok_of_toOption hok)))

theorem bootForged_runs : MemRuns ⟨bootStarted, 0⟩ ⟨bootForged, ⟨0xEFC00008, 100⟩ ::ₘ 0⟩ := by
  obtain ⟨-, -, ⟨hcode₁, hwrite₁⟩, ⟨hcode₂, hwrite₂⟩, ⟨hcode₃, hwrite₃⟩, -⟩ := bootTaken_calls
  rw [bootForged]
  apply forge_runs _ (by decide) hcode₃ hwrite₃
  apply forge_runs _ (by decide) hcode₂ hwrite₂
  exact forge_runs bootTaken_runs (by decide) hcode₁ hwrite₁

/-- `kfree` returns for that header, and no free blocks make room for its range. -/
theorem bootForged_returns : MemRuns ⟨bootStarted, 0⟩ ⟨bootForged, ⟨0xEFC00008, 100⟩ ::ₘ 0⟩ ∧
    (load (0xEFC00018 - sizeofBlock) 8 bootForged).1.toOption =
      some (Block.bytes ⟨0xFFC00000, 0x80000000⟩) ∧
    (kfree 0xEFC00018 bootForged).1.toOption = some () ∧
    ∀ F, ¬ Guarded F ⟨0xFFC00000, 0x80000000⟩ 0xEFC00018 bootForged := by
  obtain ⟨-, -, -, -, -, hload, hok⟩ := bootTaken_calls
  refine ⟨bootForged_runs, hload, hok, fun F hguard => ?_⟩
  obtain hret | ⟨e, s', herr, -⟩ := hguard
  · exact absurd hret.hi (by decide)
  · rw [herr] at hok
    cases hok

end Jkos.Page
