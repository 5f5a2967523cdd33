import Jkos.Kheap.Misuse

/-!
# Which block `kmalloc` takes

Requests that leave room for the sums of `kmalloc` get the least block they fit into. For
other requests the sums may wrap: the search then takes a block for which the wrapped test
passes, and the pointer it returns is sound only if nothing wrapped for that block.
-/

namespace Jkos.Page

open Exec Kheap

variable {g : Layout} {s s' s₀ s₁ : Kernel} {F : Multiset Block} {b : Block} {size p : Word}
  {palign : Nat}

/-! ## Best fit -/

/-- What `kmalloc` keeps lies in the block that it has taken. -/
theorem Owned.kept_inside {live : Multiset Chunk} {own F' : Multiset Block} {got : Block}
    (h : Owned g F live own s) (hres : Reserved F F' size palign p got) (hb : b ∈ F)
    (hlo : b.start.toNat + 8 ≤ p.toNat) (hhi : p.toNat + size.toNat ≤ b.stop) :
    b.start.toNat ≤ got.start.toNat ∧ got.stop ≤ b.stop := by
  have hpos := hres.kept.pos
  have hhead := hres.header
  have hpay := hres.payload
  have hlt : got.start.toNat < got.stop := by
    rw [Block.stop]
    omega
  have hdepth : ∀ x, got.start.toNat ≤ x → x < got.stop → 0 < depthOf F x := by
    intro x h₁ h₂
    rw [hres.depth, Cover.Span.at_of_mem (a := got.span) ⟨h₁, h₂⟩]
    omega
  obtain ⟨b', hb', hlo', hhi'⟩ := h.separate.exists_block h.valid.heap.proper h.valid.heap.once
    hlt hdepth
  rw [Block.stop] at hhi' ⊢
  -- both blocks contain the first address of the header
  obtain rfl : b' = b := by
    refine eq_of_overlap (x := p.toNat - 8) hb' hb h.valid.heap.once ?_ ?_
    · omega
    · omega
  exact ⟨hlo', hhi'⟩

/-- Frames are asked for only when a block has been found. -/
theorem exists_fits_of_noFreeFrame {σ : HeapSystem} (hboot : Booted g s₀)
    (hinit : initEmptyPages s₀ = (.ok (), s₁)) (hrun : MemRuns ⟨s₁, 0⟩ σ)
    (hsize : size.toNat + 8 < 2 ^ 32) (hpalign : palign ≤ 22)
    (herr : kmalloc size palign σ.kernel = (.error .noFreeFrame, s')) :
    ∃ F, Frees σ.kernel.heap F F ∧ ∃ b ∈ F, Fits size palign b := by
  obtain ⟨F, own, hown⟩ := (hrun.started ((initEmptyPages_ends hboot).ok hinit).1).owned
  refine ⟨F, hown.valid.heap.frees, ?_⟩
  have hends : Ends (kmalloc size palign) _ _ _ := kmalloc_placed hown.valid
    fun b hb => hown.valid.chosen_fits hsize hpalign hb
  obtain (⟨he, -⟩ | ⟨he, -⟩) | ⟨-, b, hchosen⟩ := hends.error herr
  · cases he
  · cases he
  · exact ⟨b, hchosen.mem, hown.valid.chosen_fits hsize hpalign hchosen⟩

/-- Requests of reasonable size and alignment get the least block they fit into; they fail
if there is none, or if the nodes or the frames are used up. -/
theorem kmalloc_bestFit {σ : HeapSystem} (hboot : Booted g s₀)
    (hinit : initEmptyPages s₀ = (.ok (), s₁)) (hrun : MemRuns ⟨s₁, 0⟩ σ)
    (hF : Frees σ.kernel.heap F F) (hsize : size.toNat + 8 < 2 ^ 32) (hpalign : palign ≤ 22) :
    SumsExact F size palign ∧
    ((∀ b ∈ F, ¬ Fits size palign b) →
      ∃ s', kmalloc size palign σ.kernel = (.error .outOfMemory, s')) ∧
    ∀ b, LeastFit F size palign b →
      (∃ e s', kmalloc size palign σ.kernel = (.error e, s') ∧
        (e = .outOfNodes ∨ e = .noFreeFrame)) ∨
      ∃ p s', kmalloc size palign σ.kernel = (.ok p, s') ∧
        BestFit b size palign p (recorded s' p) := by
  obtain ⟨F', own, hown⟩ := (hrun.started ((initEmptyPages_ends hboot).ok hinit).1).owned
  obtain rfl := hF.unique hown.valid.heap.frees
  have hproper := hown.valid.heap.proper
  have hends : Ends (kmalloc size palign) _ _ _ := kmalloc_placed hown.valid
    fun b hb => hown.valid.chosen_fits hsize hpalign hb
  have hleast := fun b (hb : Chosen F size palign (firstReq size) b) =>
    hb.leastFit hproper hsize hpalign
  refine ⟨sumsExact hproper hsize hpalign, fun hnone => ?_, fun b hb => ?_⟩
  · cases hrun : kmalloc size palign σ.kernel with
    | mk r s' =>
        cases r with
        | ok p =>
            obtain ⟨F', got, -, b, hchosen, -⟩ := hends.ok hrun
            exact absurd (hleast b hchosen).fits (hnone b hchosen.mem)
        | error e =>
            obtain (⟨rfl, -⟩ | ⟨-, b, hchosen⟩) | ⟨-, b, hchosen⟩ := hends.error hrun
            · exact ⟨s', rfl⟩
            · exact absurd (hleast b hchosen).fits (hnone b hchosen.mem)
            · exact absurd (hleast b hchosen).fits (hnone b hchosen.mem)
  · cases hrun : kmalloc size palign σ.kernel with
    | mk r s' =>
        cases r with
        | error e =>
            refine .inl ⟨e, s', rfl, ?_⟩
            obtain (⟨-, hnone⟩ | ⟨he, -⟩) | ⟨he, -⟩ := hends.error hrun
            · obtain ⟨hge, haccept⟩ :=
                (accepts_iff_fits (hproper b hb.mem) hsize hpalign).mpr hb.fits
              exact absurd haccept (hnone b hb.mem hge)
            · exact .inl he
            · exact .inr he
        | ok p =>
            obtain ⟨F', got, hm, b', hchosen, hp, hsnug⟩ := hends.ok hrun
            obtain rfl := hb.eq (hleast b' hchosen)
            obtain ⟨hhead, -, hpay⟩ := hb.fits.payload (hproper b hb.mem)
            rw [← hp] at hhead hpay
            refine .inr ⟨p, s', rfl, ?_⟩
            rw [hm.live_new.recorded_eq hm.valid.sound hm.valid.linked]
            refine ⟨?_, hown.kept_inside hm.reserved hb.mem hhead hpay, ⟨hm.reserved.header, ?_⟩,
              hm.reserved.payload, hsnug.2⟩
            · rw [hp, (hb.fits.exact (hproper b hb.mem)).payload]
            · have hfront := hsnug.1
              omega

/-- 100 bytes come from the least block that they fit into. -/
theorem bootStarted_bestFit : ∃ F, Frees bootStarted.heap F F ∧ SumsExact F 100 0 ∧
    (∃ b ∈ F, Fits 100 0 b) ∧
    ∀ b, LeastFit F 100 0 b → BestFit b 100 0 0xEFC00008 (recorded bootTaken 0xEFC00008) := by
  obtain ⟨F, hF⟩ := MemRuns.exists_free .refl bootKernel_booted bootStarted_run
  obtain ⟨hsums, hnone, hbest⟩ : SumsExact F 100 0 ∧ _ := kmalloc_bestFit bootKernel_booted
    bootStarted_run .refl hF (by decide) (by decide)
  refine ⟨F, hF, hsums, ?_, fun b hb => ?_⟩
  · by_contra hall
    push Not at hall
    obtain ⟨s', herr⟩ := hnone hall
    rw [bootTaken_run] at herr
    cases herr
  · obtain ⟨e, s', herr, -⟩ | ⟨p, s', hok, hbest⟩ := hbest b hb
    · rw [bootTaken_run] at herr
      cases herr
    · rw [bootTaken_run] at hok
      cases hok
      exact hbest

/-- The boot kernel with one free frame, which the header of the scratch pages takes. -/
def bootScarce : Kernel := { bootKernel with frames := bootKernel.frames.take 1 }

theorem bootScarce_booted :
    Booted (bootLayout.keepFrames bootKernel (bootKernel.frames.take 1)) bootScarce :=
  bootKernel_booted.keepFrames (List.take_sublist 1 _)

@[irreducible] def scarceStarted : Kernel := (initEmptyPages bootScarce).2

/-- One page too many for that frame; and calls after the complete boot. -/
theorem scarce_calls : (initEmptyPages bootScarce).1.toOption = some () ∧
    (kmalloc 4088 0 scarceStarted).1 = .error .noFreeFrame ∧
    lookup bootStarted bootStarted.currentPageDir (0 - sizeofBlock) = none ∧
    (kmalloc 0xFFFFFFFC 0 bootStarted).1.toOption = some 0xEFC00008 := by
  decide +kernel

theorem scarceStarted_run : initEmptyPages bootScarce = (.ok (), scarceStarted) := by
  rw [scarceStarted]
  exact eq_ok_of_toOption scarce_calls.1

/-- There is a block that the request fits into, and nodes in the pool; but no frame is left
for the page of the header. -/
theorem scarce_noFreeFrame : (∃ g, Booted g bootScarce) ∧
    initEmptyPages bootScarce = (.ok (), scarceStarted) ∧
    (∃ F, Frees scarceStarted.heap F F ∧ ∃ b ∈ F, Fits 4088 0 b) ∧
    ∃ s', kmalloc 4088 0 scarceStarted = (.error .noFreeFrame, s') := by
  obtain ⟨s', herr⟩ : ∃ s', kmalloc 4088 0 scarceStarted = (.error .noFreeFrame, s') :=
    ⟨_, Prod.ext scarce_calls.2.1 rfl⟩
  obtain ⟨F, hF, b, hb, hfits⟩ := exists_fits_of_noFreeFrame bootScarce_booted
    scarceStarted_run .refl (by decide) (by decide) herr
  exact ⟨⟨_, bootScarce_booted⟩, scarceStarted_run, ⟨F, hF, b, hb, hfits⟩, s', herr⟩

/-! ## All requests -/

theorem commit_eq_ok {k : Word → Nat → Prog Word} {r : Word × Block}
    (h : commit k size r s = (.ok p, s')) : p = r.1 := by
  obtain ⟨d, t₀, hd, h⟩ := bind_eq_ok h
  obtain ⟨-, t₁, -, h⟩ := bind_eq_ok h
  obtain ⟨-, t₂, -, h⟩ := bind_eq_ok h
  cases h
  rfl

/-- The pointer that `kmalloc` returns is that of the block which the search has taken. -/
theorem Valid.kmalloc_chosen {c : Prop} (h : Valid g c F s)
    (hrun : kmalloc size palign s = (.ok p, s')) :
    ∃ b, Chosen F size palign (firstReq size) b ∧ p = payloadAt palign b := by
  obtain ⟨k, hk⟩ : ∃ k, kmalloc size palign s = kmallocWith k size palign s := ⟨_, rfl⟩
  rw [hk, kmallocWith_eq k h.linked.heapReady] at hrun
  obtain ⟨r, t, hreserve, hcommit⟩ := bind_eq_ok hrun
  have hsearch : Ends (Kheap.reserve size palign _ _) s.heap _ _ :=
    reserve_chosen h.heap.proper s.heap h.heap.frees
  obtain ⟨-, ⟨b, hchosen, hp⟩, -⟩ := (onHeap_ends hsearch).ok hreserve
  exact ⟨b, hchosen, (commit_eq_ok hcommit).trans hp⟩

/-- Kernel code can write at the address: the page is writable, or open to the fault handler. -/
def KernelOpen (s : Kernel) (a : Word) : Prop :=
  ∃ q, lookup s s.currentPageDir a = some q ∧
    ((s.page q).allocable = true ∨ (s.page q).present = true ∧ (s.page q).rw = true)

/-- The header in front of the pointer has memory: its page is open, or it is one of those that
`kmalloc` opens. -/
def HeaderOpen (s : Kernel) (size p : Word) : Prop :=
  KernelOpen s (p - sizeofBlock) ∨ pageOf (p - sizeofBlock) < getAligned (p + size) 12

/-- A free block for which the sums wrap, while its header has memory, is never the first block
that the test accepts. -/
def SumsSafe (F : Multiset Block) (size : Word) (palign : Nat) (s : Kernel) : Prop :=
  ∀ b, Tested F size palign b → Overflows size palign b → HeaderOpen s size (payloadAt palign b) →
    ∃ b', Tested F size palign b' ∧ BlockSize.mk b' < ⟨b⟩

theorem sumsSafe_iff (hb : Chosen F size palign (firstReq size) b) :
    SumsSafe F size palign s ↔
      (Overflows size palign b → ¬ HeaderOpen s size (payloadAt palign b)) := by
  obtain ⟨htested, hleast⟩ := chosen_iff.mp hb
  constructor
  · intro h hover hopen
    obtain ⟨b', hb', hlt⟩ := h b htested hover hopen
    exact hleast b' hb' hlt
  · intro h b' hb' hover hopen
    by_cases hne : b' = b
    · subst hne
      exact absurd hopen (h hover)
    · exact ⟨b, htested, hb.lt_of_ne hb' hne⟩

theorem noWrap_iff (hb : Chosen F size palign (firstReq size) b) :
    NoWrap F size palign ↔ ¬ Overflows size palign b := by
  rw [Overflows, Nat.not_le]
  constructor
  · intro h
    exact (h b hb).2
  · intro h b' hb'
    obtain rfl := hb.eq hb'
    obtain ⟨hle, -, -⟩ := alignUp_bounds (b.start.toNat + 8) palign
    exact ⟨by omega, h⟩

/-- A write to a page that is not open ends in a panic. -/
theorem store_closed {dest : Word} {v : Byte} {vs : List Byte} (h : ¬ KernelOpen s dest) :
    ∃ errCode, store dest (v :: vs) s = (.error (.pageFault dest errCode), s) := by
  have haccess : ∃ errCode, access dest true (s.kernelCodeEnd - 1) s =
      (.error (.pageFault dest errCode), s) := by
    cases hlook : lookup s s.currentPageDir dest with
    | none =>
        exact access_of_refused ⟨_, by simp only [walk, hlook]; rfl⟩ fun _ =>
          pageFault_of_none hlook
    | some q =>
        have hclosed : ¬ (s.page q).allocable = true := fun hopen => h ⟨q, hlook, .inl hopen⟩
        refine access_of_refused ?_ fun _ =>
          pageFault_of_closed hlook fun hopen => hclosed hopen.1
        simp only [walk, hlook]
        split
        · exact ⟨_, rfl⟩
        · next hpresent =>
            rw [Bool.not_eq_false] at hpresent
            have hrw : (s.page q).rw = false := by
              rw [Bool.eq_false_iff]
              exact fun hrw => h ⟨q, hlook, .inr ⟨hpresent, hrw⟩⟩
            rw [if_pos (.inr ⟨trivial, hrw⟩)]
            exact ⟨_, rfl⟩
  obtain ⟨errCode, haccess⟩ := haccess
  refine ⟨errCode, ?_⟩
  have heip : kernelEip s = (.ok (s.kernelCodeEnd - 1), s) := rfl
  rw [store, bind_ok heip]
  exact bind_error (bind_error haccess)

/-- Without memory for the header the call panics. -/
theorem Valid.kmalloc_panics {c : Prop} (h : Valid g c F s)
    (hb : Chosen F size palign (firstReq size) b)
    (hclosed : ¬ HeaderOpen s size (payloadAt palign b)) :
    ∃ e s', kmalloc size palign s = (.error e, s') ∧ e ≠ .diverge := by
  obtain ⟨k, hk⟩ : ∃ k, kmalloc size palign s = kmallocWith k size palign s := ⟨_, rfl⟩
  rw [hk, kmallocWith_eq k h.linked.heapReady]
  have hsearch : Ends (Kheap.reserve size palign _ _) s.heap _ _ :=
    reserve_total h.heap.proper hb s.heap h.heap.frees
  have hends := onHeap_ends hsearch
  cases hrun : onHeap (Kheap.reserve size palign loopBound (firstReq size)) s with
  | mk r t =>
      cases r with
      | error e =>
          obtain rfl : e = .outOfNodes := hends.error hrun
          exact ⟨_, t, bind_error hrun, fun e => Fault.noConfusion e⟩
      | ok r =>
          obtain ⟨h', hstart, rfl⟩ := hends.ok hrun
          have hstart : r.1 = payloadAt palign b := hstart
          rw [← hstart, HeaderOpen, not_or] at hclosed
          -- no page is opened, and the first byte of the header faults
          have hnone : ¬ pageOf (r.1 - sizeofBlock) < getAligned (r.1 + size) 12 := hclosed.2
          have hempty : lazyAllocIntervalWith k s.currentPageDir (pageOf (r.1 - sizeofBlock))
              (getAligned (r.1 + size) 12) false true false { s with heap := h' } =
              (.ok (), { s with heap := h' }) := by
            have hfuel : loopBound = (loopBound - 1) + 1 := by decide
            rw [lazyAllocIntervalWith, interval, if_pos ⟨pageOf_pageOf _, pageOf_getAligned _⟩,
              hfuel, forPages, if_neg hnone]
            rfl
          have hdest : ¬ KernelOpen { s with heap := h' } (r.1 - sizeofBlock) := hclosed.1
          obtain ⟨errCode, hstore⟩ : ∃ errCode, store (r.1 - sizeofBlock) r.2.bytes
              { s with heap := h' } = (.error (.pageFault _ errCode), { s with heap := h' }) :=
            store_closed hdest
          refine ⟨.pageFault (r.1 - sizeofBlock) errCode, { s with heap := h' }, ?_,
            fun e => Fault.noConfusion e⟩
          rw [bind_ok hrun, commit, bind_ok (read_apply _ _), bind_ok hempty]
          exact bind_error hstore

/-- `kmalloc` panics, or returns a pointer to memory in one free block. -/
def SafeCall (F : Multiset Block) (size : Word) (palign : Nat) (s : Kernel) : Prop :=
  (∃ e s', kmalloc size palign s = (.error e, s') ∧ e ≠ .diverge) ∨
    ∃ p s', kmalloc size palign s = (.ok p, s') ∧ WithinFree F size palign p

/-- Where no sum wraps for the block that the search takes, every request is safe. -/
theorem Valid.safe_of_noWrap {c : Prop} (h : Valid g c F s) (hpalign : palign ≤ 31)
    (hwrap : NoWrap F size palign) : SafeCall F size palign s := by
  have hproper := h.heap.proper
  have hends : Ends (kmalloc size palign) _ _ _ := kmalloc_placed h
    fun b hb => hwrap.fits hproper hb
  cases hcall : kmalloc size palign s with
  | mk r s' =>
      cases r with
      | ok p =>
          obtain ⟨b, hchosen, rfl⟩ := h.kmalloc_chosen hcall
          exact .inr ⟨_, s', hcall, (hchosen.withinFree_iff hproper hpalign).mpr hwrap⟩
      | error e =>
          refine .inl ⟨e, s', hcall, ?_⟩
          obtain (⟨rfl, -⟩ | ⟨rfl, -⟩) | ⟨rfl, -⟩ := hends.error hcall
          · exact fun e => Fault.noConfusion e
          · exact fun e => Fault.noConfusion e
          · exact fun e => Fault.noConfusion e

/-- Unless the first block that the test accepts is one for which the sums wrap, and its header
has memory, every request is safe; and the requests that return are safe only then. -/
theorem kmalloc_safe_iff {σ : HeapSystem} (hboot : Booted g s₀)
    (hinit : initEmptyPages s₀ = (.ok (), s₁)) (hrun : MemRuns ⟨s₁, 0⟩ σ)
    (hF : Frees σ.kernel.heap F F) (hpalign : palign ≤ 31) :
    (SumsSafe F size palign σ.kernel → SafeCall F size palign σ.kernel) ∧
    ∀ p s', kmalloc size palign σ.kernel = (.ok p, s') →
      (SafeCall F size palign σ.kernel ↔ SumsSafe F size palign σ.kernel) := by
  obtain ⟨F', own, hown⟩ := (hrun.started ((initEmptyPages_ends hboot).ok hinit).1).owned
  obtain rfl := hF.unique hown.valid.heap.frees
  have hproper := hown.valid.heap.proper
  refine ⟨fun hsums => ?_, fun p s' hcall => ⟨?_, fun hsums => ?_⟩⟩
  · by_cases hwrap : NoWrap F size palign
    · exact hown.valid.safe_of_noWrap hpalign hwrap
    · obtain ⟨b, hb⟩ : ∃ b, Chosen F size palign (firstReq size) b := by
        by_contra hnone
        exact hwrap fun b hb => absurd ⟨b, hb⟩ hnone
      rw [noWrap_iff hb, not_not] at hwrap
      exact .inl (hown.valid.kmalloc_panics hb ((sumsSafe_iff hb).mp hsums hwrap))
  · obtain ⟨b, hb, rfl⟩ := hown.valid.kmalloc_chosen hcall
    rintro (⟨e, t, herr, -⟩ | ⟨q, t, hcall', hwithin⟩)
    · rw [hcall] at herr
      cases herr
    · rw [hcall] at hcall'
      cases hcall'
      have hwrap := (hb.withinFree_iff hproper hpalign).mp hwithin
      exact (sumsSafe_iff hb).mpr fun hover => absurd hover ((noWrap_iff hb).mp hwrap)
  · obtain ⟨b, hb, rfl⟩ := hown.valid.kmalloc_chosen hcall
    by_cases hwrap : Overflows size palign b
    · obtain ⟨e, t, herr, -⟩ := hown.valid.kmalloc_panics hb ((sumsSafe_iff hb).mp hsums hwrap)
      rw [hcall] at herr
      cases herr
    · exact hown.valid.safe_of_noWrap hpalign ((noWrap_iff hb).mpr hwrap)

/-- Above the middle of the address space the next multiple of `2 ^ 31` is zero. -/
theorem payloadAt_of_31 (hb : b.Proper) : payloadAt 31 b = 0 := by
  have hlo := hb.lo
  have hhi := hb.hi
  have hpos := hb.pos
  obtain ⟨hle, hlt, k, hk⟩ := alignUp_bounds (b.start.toNat + 8) 31
  apply Word.ext_toNat
  rw [toNat_payloadAt hb, hk]
  rw [hk] at hle hlt
  obtain rfl : k = 2 := by omega
  rfl

/-- At boot 100 bytes are safe at any address, and at a multiple of `2 ^ 31`, where the kernel
panics. -/
theorem bootStarted_safe : ∃ F, Frees bootStarted.heap F F ∧
    (SafeCall F 100 0 bootStarted ↔ SumsSafe F 100 0 bootStarted) ∧
    SafeCall F 100 31 bootStarted := by
  obtain ⟨F, hF⟩ := MemRuns.exists_free .refl bootKernel_booted bootStarted_run
  obtain ⟨hproper, -⟩ := MemRuns.free .refl bootKernel_booted bootStarted_run hF
  obtain ⟨-, hiff⟩ : (SumsSafe F 100 0 bootStarted → _) ∧ _ := kmalloc_safe_iff bootKernel_booted
    bootStarted_run .refl hF (by decide)
  obtain ⟨hsafe, -⟩ : (SumsSafe F 100 31 bootStarted → _) ∧ _ := kmalloc_safe_iff
    bootKernel_booted bootStarted_run .refl hF (by decide)
  refine ⟨F, hF, hiff _ _ bootTaken_run, hsafe fun b hb _ hopen => ?_⟩
  rw [payloadAt_of_31 (hproper b hb.mem)] at hopen
  obtain ⟨q, hlook, -⟩ | hlt := hopen
  · rw [scarce_calls.2.2.1] at hlook
    cases hlook
  · exact absurd hlt (by decide)

/-- A request of almost `2 ^ 32` bytes returns a pointer with a few bytes behind it. -/
theorem bootStarted_huge : (kmalloc 0xFFFFFFFC 0 bootStarted).1.toOption = some 0xEFC00008 ∧
    ∀ F, ¬ SafeCall F 0xFFFFFFFC 0 bootStarted := by
  have hok := scarce_calls.2.2.2
  refine ⟨hok, fun F hsafe => ?_⟩
  obtain ⟨e, s', herr, -⟩ | ⟨p, s', hcall, hwithin⟩ := hsafe
  · rw [herr] at hok
    cases hok
  · rw [hcall] at hok
    obtain rfl := Option.some.inj hok
    obtain ⟨b, -, -, hend, -, hpay⟩ := hwithin.inside
    have hstop : b.stop ≤ 0xFFC00000 := hend
    have hhuge : (0xEFC00008 : Word).toNat + (0xFFFFFFFC : Word).toNat ≤ b.stop := hpay
    exact absurd (hhuge.trans hstop) (by decide)

end Jkos.Page
