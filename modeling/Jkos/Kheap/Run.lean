import Jkos.Page.Handover

/-!
# Runs of the kernel heap

Any sequence of calls to `kmalloc` and `kfree` after booting, while the clients use their
own memory. In every state of such a run the free blocks and the blocks behind the live
pointers tile the heap, no two free blocks touch, and a call to `kfree` takes no page
from a live block.
-/

namespace Jkos.Page

open Exec Kheap

/-- The kernel, and the pointers that `kmalloc` returned and nobody has freed. -/
structure HeapSystem where
  kernel : Kernel
  live : Multiset Chunk

/-- One call, or one access of a client. -/
inductive HeapStep : HeapSystem → HeapSystem → Prop
  | kmalloc {s s' : Kernel} {live : Multiset Chunk} {size ptr : Word} {palign : Nat}
      (hsize : size.toNat + 8 < 2 ^ 32) (hpalign : palign ≤ 22)
      (run : kmalloc size palign s = (.ok ptr, s')) :
      HeapStep ⟨s, live⟩ ⟨s', ⟨ptr, size⟩ ::ₘ live⟩
  | kfree {s s' : Kernel} {live : Multiset Chunk} {x : Chunk}
      (run : kfree x.ptr s = (.ok (), s')) : HeapStep ⟨s, x ::ₘ live⟩ ⟨s', live⟩
  | write {s s' : Kernel} {live : Multiset Chunk} {x : Chunk} {a eip : Word} {v : Byte}
      (hx : x ∈ live) (lower : x.ptr.toNat ≤ a.toNat)
      (upper : a.toNat < x.ptr.toNat + x.size.toNat) (heip : eip < s.kernelCodeEnd)
      (run : writeByte a v eip s = (.ok (), s')) : HeapStep ⟨s, live⟩ ⟨s', live⟩
  | read {s s' : Kernel} {live : Multiset Chunk} {a eip : Word} {v : Byte}
      (page : InLivePage s live a) (heip : eip < s.kernelCodeEnd)
      (run : readByte a eip s = (.ok v, s')) : HeapStep ⟨s, live⟩ ⟨s', live⟩

/-- Any number of steps. -/
abbrev HeapRuns : HeapSystem → HeapSystem → Prop := Relation.ReflTransGen HeapStep

variable {g : Layout} {s s' s₀ : Kernel} {σ σ' : HeapSystem} {F own : Multiset Block}
  {live : Multiset Chunk} {x : Chunk}

theorem HeapStep.owned (h : HeapStep σ σ') (hown : Owned g F σ.live own σ.kernel) :
    ∃ F', Owned g F' σ'.live own σ'.kernel := by
  cases h with
  | kmalloc hsize hpalign run =>
      obtain ⟨F', got, hm⟩ := (kmalloc_ends hown.valid hsize hpalign).ok run
      exact ⟨F', hown.kmalloc hm⟩
  | kfree run =>
      obtain ⟨F', freeStart, freeEnd, hf⟩ := (kfree_ends hown.valid hown.allocated).ok run
      exact ⟨F', hown.kfree hf⟩
  | write hx lower upper heip run =>
      exact ⟨F, ((hown.write_ends hx lower upper heip _).ok run).2⟩
  | read page heip run => exact ⟨F, ((hown.read_ends page heip).ok run).2⟩

/-- The owners of the heap along a run. -/
theorem HeapRuns.owned (h : HeapRuns σ σ') (hown : Owned g F σ.live own σ.kernel) :
    ∃ F', Owned g F' σ'.live own σ'.kernel := by
  induction h with
  | refl => exact ⟨F, hown⟩
  | tail _ hstep ih =>
      obtain ⟨F₁, h₁⟩ := ih
      exact hstep.owned h₁

/-! ## The partition -/

/-- The free blocks `F` and the blocks recorded for the live pointers divide the heap. -/
structure Partitioned (s : Kernel) (live : Multiset Chunk) (F : Multiset Block) : Prop where
  trees : Frees s.heap F F
  headers : ∀ x ∈ live, load (x.ptr - sizeofBlock) 8 s = (.ok (recorded s x.ptr).bytes, s)
  tiles : Cover.Tiles ((F + blocks s live).map Block.span) kernelHeapBegin.toNat
    kernelHeapEnd.toNat
  pos : ∀ b ∈ F + blocks s live, 0 < b.size.toNat
  inside : ∀ x ∈ live, (recorded s x.ptr).start.toNat + 8 ≤ x.ptr.toNat ∧
    x.ptr.toNat + x.size.toNat ≤ (recorded s x.ptr).stop

theorem Owned.partitioned (h : Owned g F live 0 s) : Partitioned s live F := by
  refine ⟨h.valid.heap.frees, fun x hx => ?_, fun a => ?_, fun b hb => ?_, fun x hx => ?_⟩
  · exact load_of_cells h.valid.sound (h.chunks x hx).cells
      fun k hk => (h.chunks x hx).ready_header h.valid.linked hk
  · have htiles := h.tiles a
    rw [kernelHeapBegin_eq, kernelHeapEnd_eq, Multiset.map_add, Cover.depth_add]
    exact htiles
  · obtain hb | hb := Multiset.mem_add.mp hb
    · exact (h.valid.heap.proper b hb).pos
    · obtain ⟨x, hx, rfl⟩ := Multiset.mem_map.mp hb
      exact (h.chunks x hx).proper.pos
  · exact ⟨(h.chunks x hx).header, (h.chunks x hx).payload⟩

/-- In every state of every run the heap is divided among its owners. -/
theorem heap_partition (hboot : Booted g s₀) (hrun : HeapRuns ⟨s₀, 0⟩ σ) :
    ∃ F, Partitioned σ.kernel σ.live F := by
  obtain ⟨F, hown⟩ := hrun.owned hboot.owned
  exact ⟨F, hown.partitioned⟩

/-- The kernel that has booted and then served one request. -/
@[irreducible] def bootMalloc (size : Word) : Kernel := (kmalloc size 0 bootKernel).2

theorem boot_kmalloc {size : Word}
    (hrun : (kmalloc size 0 bootKernel).1.toOption = some 0xEFC00008) :
    kmalloc size 0 bootKernel = (.ok 0xEFC00008, bootMalloc size) := by
  rw [bootMalloc]
  exact eq_ok_of_toOption hrun

/-- Three requests, the last of them for a page boundary. -/
@[irreducible] def bootTwo : Kernel := (kmalloc 5000 4 (bootMalloc 100)).2

@[irreducible] def bootThree : Kernel := (kmalloc 300 12 bootTwo).2

/-- The second block is written, and then freed. -/
@[irreducible] def bootPoked : Kernel := (writeByte 0xEFC00080 7 0x100000 bootThree).2

@[irreducible] def bootHole : Kernel := (kfree 0xEFC00080 bootPoked).2

/-- Requests of 100 and of 8192 bytes, and the range that comes back when the latter is freed;
and the calls of the longer run. -/
theorem bootMalloc_calls :
    ((kmalloc 100 0 bootKernel).1.toOption = some 0xEFC00008 ∧
      (kmalloc 8192 0 bootKernel).1.toOption = some 0xEFC00008 ∧
      (unlink 0xEFC00008 (bootMalloc 8192)).1.toOption = some (0xEFC00000, 0xEFC02008)) ∧
    (kmalloc 5000 4 (bootMalloc 100)).1.toOption = some 0xEFC00080 ∧
    (kmalloc 300 12 bootTwo).1.toOption = some 0xEFC02000 ∧
    (0x100000 : Word) < bootThree.kernelCodeEnd ∧
    (writeByte 0xEFC00080 7 0x100000 bootThree).1.toOption = some () ∧
    (kfree 0xEFC00080 bootPoked).1.toOption = some () := by
  decide +kernel

/-- The pointers of the three requests. -/
def firstChunk : Chunk := ⟨0xEFC00008, 100⟩

def secondChunk : Chunk := ⟨0xEFC00080, 5000⟩

def thirdChunk : Chunk := ⟨0xEFC02000, 300⟩

theorem bootThree_runs : HeapRuns ⟨bootKernel, 0⟩
    ⟨bootThree, thirdChunk ::ₘ secondChunk ::ₘ firstChunk ::ₘ 0⟩ := by
  have hsecond : kmalloc 5000 4 (bootMalloc 100) = (.ok 0xEFC00080, bootTwo) := by
    rw [bootTwo]
    exact eq_ok_of_toOption bootMalloc_calls.2.1
  have hthird : kmalloc 300 12 bootTwo = (.ok 0xEFC02000, bootThree) := by
    rw [bootThree]
    exact eq_ok_of_toOption bootMalloc_calls.2.2.1
  have hfirst : HeapRuns ⟨bootKernel, 0⟩ ⟨bootMalloc 100, firstChunk ::ₘ 0⟩ :=
    .single (.kmalloc (by decide) (Nat.zero_le 22) (boot_kmalloc bootMalloc_calls.1.1))
  refine (hfirst.tail (.kmalloc ?_ ?_ hsecond)).tail (.kmalloc ?_ ?_ hthird)
  · decide
  · decide
  · decide
  · decide

theorem bootHole_runs : HeapRuns ⟨bootKernel, 0⟩ ⟨bootHole, thirdChunk ::ₘ firstChunk ::ₘ 0⟩ := by
  have hwrite : writeByte 0xEFC00080 7 0x100000 bootThree = (.ok (), bootPoked) := by
    rw [bootPoked]
    exact eq_ok_of_toOption bootMalloc_calls.2.2.2.2.1
  have hfree : kfree 0xEFC00080 bootPoked = (.ok (), bootHole) := by
    rw [bootHole]
    exact eq_ok_of_toOption bootMalloc_calls.2.2.2.2.2
  have hruns := bootThree_runs
  rw [Multiset.cons_swap] at hruns
  refine (hruns.tail (.write (x := secondChunk) ?_ ?_ ?_ bootMalloc_calls.2.2.2.1 hwrite)).tail
    (.kfree (x := secondChunk) hfree)
  · exact Multiset.mem_cons_self _ _
  · decide
  · decide

/-- After three requests and a call to `kfree` the free blocks and the two blocks that are in
use divide the heap. -/
theorem boot_partition : ∃ F, Partitioned bootHole (thirdChunk ::ₘ firstChunk ::ₘ 0) F := by
  obtain ⟨F, hF⟩ := heap_partition bootKernel_booted bootHole_runs
  exact ⟨F, hF⟩

/-! ## The pages that are given back -/

/-- `kfree` frees only pages that lie wholly in the merged free block, so none with a byte
of another live pointer. -/
theorem kfree_spares_live {range : Word × Word} (hboot : Booted g s₀)
    (hrun : HeapRuns ⟨s₀, 0⟩ ⟨s, x ::ₘ live⟩) (hunlink : unlink x.ptr s = (.ok range, s')) :
    ∃ F, Frees s'.heap F F ∧ ∃ merged ∈ F,
      merged.start.toNat ≤ (recorded s x.ptr).start.toNat ∧
      (recorded s x.ptr).stop ≤ merged.stop ∧
      ∀ i : Word, pageOf i = i → getAligned range.1 12 ≤ i → i < pageOf range.2 →
        (merged.start.toNat ≤ i.toNat ∧ i.toNat + 4096 ≤ merged.stop) ∧
        ∀ y ∈ live, ∀ a : Nat, y.ptr.toNat - 8 ≤ a → a < y.ptr.toNat + y.size.toNat →
          ¬ (i.toNat ≤ a ∧ a < i.toNat + 4096) := by
  obtain ⟨F, hown⟩ := hrun.owned hboot.owned
  have hown : Owned g F (x ::ₘ live) 0 s := hown
  obtain ⟨F', h', rfl, hvalid, hrel⟩ := (unlink_ends hown.valid hown.allocated).ok hunlink
  obtain ⟨merged, hm, hlo, hhi, hinside⟩ := Released.pages_inside hrel
  refine ⟨F', hvalid.heap.frees, merged, hm, hlo, hhi, fun i hi h₁ h₂ => ?_⟩
  obtain ⟨hlo', hhi'⟩ := hinside i hi h₁ h₂
  refine ⟨⟨hlo', hhi'⟩, fun y hy a ha₁ ha₂ ha => ?_⟩
  -- the address would belong to the merged block and to the block of the pointer
  have hy' := hown.chunks y (Multiset.mem_cons_of_mem hy)
  have hhead := hy'.header
  have hpay := hy'.payload
  have hpos : 0 < depthOf F' a := depthOf_pos_of_mem hm (by omega) (by omega)
  have hpos' : 0 < depthOf (blocks s live) a :=
    depthOf_pos_of_mem (Multiset.mem_map_of_mem _ hy) (by omega) (by omega)
  have hle := Cover.Span.at_le_one heapSpan a
  rw [← hown.kfree_tiles hrel] at hle
  omega

/-- Freeing 8192 bytes gives two pages back. -/
theorem boot_spares : getAligned 0xEFC00000 12 ≤ 0xEFC01000 ∧
    (0xEFC01000 : Word) < pageOf 0xEFC02008 ∧
    ∃ F, Frees (unlink 0xEFC00008 (bootMalloc 8192)).2.heap F F ∧ ∃ merged ∈ F,
      merged.start.toNat ≤ 0xEFC01000 ∧ 0xEFC02000 ≤ merged.stop := by
  have hunlink : unlink 0xEFC00008 (bootMalloc 8192) =
      (.ok (0xEFC00000, 0xEFC02008), (unlink 0xEFC00008 (bootMalloc 8192)).2) :=
    eq_ok_of_toOption bootMalloc_calls.1.2.2
  have hrun : HeapRuns ⟨bootKernel, 0⟩ ⟨bootMalloc 8192, ⟨0xEFC00008, 8192⟩ ::ₘ 0⟩ :=
    .single (.kmalloc (by decide) (Nat.zero_le 22) (boot_kmalloc bootMalloc_calls.1.2.1))
  obtain ⟨F, hF, merged, hm, -, -, hpages⟩ := kfree_spares_live bootKernel_booted hrun hunlink
  exact ⟨by decide, by decide, F, hF, merged, hm,
    (hpages 0xEFC01000 (by decide) (by decide) (by decide)).1⟩

/-! ## The order of frees -/

/-- Free pointers one after the other. -/
def kfreeAll : List Chunk → Prog Unit
  | [] => pure ()
  | x :: l => do
    kfree x.ptr
    kfreeAll l

theorem Owned.kfreeAll_ends {l : List Chunk} {rest : Multiset Chunk}
    (h : Owned g F (l + rest) own s) :
    Ends (kfreeAll l) s
      (fun _ s' => ∃ F', Owned g F' rest own s' ∧ blocks s' rest = blocks s rest)
      (fun e _ => e = .outOfNodes) := by
  induction l generalizing F s with
  | nil =>
      rw [Multiset.coe_nil, zero_add] at h
      exact ⟨F, h, rfl⟩
  | cons x l ih =>
      rw [← Multiset.cons_coe, Multiset.cons_add] at h
      refine Ends.bind (kfree_ends h.valid h.allocated) ?_
      rintro - s₁ ⟨F₁, freeStart, freeEnd, hf⟩
      refine (ih (h.kfree hf)).mono ?_ (fun _ _ h => h)
      rintro - s₂ ⟨F₂, hown, hblocks⟩
      refine ⟨F₂, hown, hblocks.trans ?_⟩
      refine Multiset.map_congr rfl fun y hy => ?_
      exact ((h.kfree_live hf (Multiset.mem_add.mpr (.inr hy))).recorded_eq
        hf.valid.sound hf.valid.linked)

/-- No two free blocks touch and none is empty. So the free blocks after freeing some
pointers do not depend on the order, and after freeing all of them there is one. -/
theorem kfree_coalesces (hboot : Booted g s₀) (hrun : HeapRuns ⟨s₀, 0⟩ ⟨s, live⟩) :
    (∃ F, Frees s.heap F F ∧ Separate F ∧ ∀ b ∈ F, 0 < b.size.toNat) ∧
    (∀ part rest, live = part + rest → ∃ F, ∀ l : List Chunk, (l : Multiset Chunk) = part →
      Ends (kfreeAll l) s (fun _ s' => Frees s'.heap F F) (fun e _ => e = .outOfNodes)) ∧
    ∀ l : List Chunk, (l : Multiset Chunk) = live →
      Ends (kfreeAll l) s (fun _ s' => Frees s'.heap {wholeHeap} {wholeHeap})
        (fun e _ => e = .outOfNodes) := by
  obtain ⟨F, hown⟩ := hrun.owned hboot.owned
  have hown : Owned g F live 0 s := hown
  refine ⟨⟨F, hown.valid.heap.frees, hown.separate, fun b hb => (hown.valid.heap.proper b hb).pos⟩,
    fun part rest hlive => ?_, fun l hl => ?_⟩
  · rw [hlive] at hown
    -- any order that succeeds fixes the free blocks for all
    by_cases hsome : ∃ F' s', Owned g F' rest 0 s' ∧ blocks s' rest = blocks s rest
    · obtain ⟨F', s', hown', hblocks'⟩ := hsome
      refine ⟨F', fun l hl => ?_⟩
      rw [← hl] at hown
      refine hown.kfreeAll_ends.mono ?_ (fun _ _ h => h)
      rintro - s'' ⟨F'', hown'', hblocks''⟩
      rw [← hown'.free_unique hown'' (hblocks''.trans hblocks'.symm)]
      exact hown''.valid.heap.frees
    · refine ⟨F, fun l hl => ?_⟩
      rw [← hl] at hown
      refine hown.kfreeAll_ends.mono ?_ (fun _ _ h => h)
      rintro - s' ⟨F', hown', hblocks'⟩
      exact absurd ⟨F', s', hown', hblocks'⟩ hsome
  · rw [← hl, ← add_zero (l : Multiset Chunk)] at hown
    refine hown.kfreeAll_ends.mono ?_ (fun _ _ h => h)
    rintro - s' ⟨F', hown', -⟩
    have hnone : blocks s' 0 = blocks s₀ 0 := by rw [blocks, blocks, Multiset.map_zero,
      Multiset.map_zero]
    rw [← hboot.owned.free_unique hown' hnone]
    exact hown'.valid.heap.frees

/-- The first and the third block leave the same free blocks in either order, and every order
of all three leads back to the whole heap. -/
theorem boot_coalesces :
    (∃ F, ∀ l ∈ [[firstChunk, thirdChunk], [thirdChunk, firstChunk]],
      Ends (kfreeAll l) bootThree (fun _ s' => Frees s'.heap F F) (fun e _ => e = .outOfNodes)) ∧
    ∀ l : List Chunk, l.Perm [firstChunk, secondChunk, thirdChunk] →
      Ends (kfreeAll l) bootThree (fun _ s' => Frees s'.heap {wholeHeap} {wholeHeap})
        (fun e _ => e = .outOfNodes) := by
  obtain ⟨-, hpart, hall⟩ := kfree_coalesces bootKernel_booted bootThree_runs
  constructor
  · obtain ⟨F, hF⟩ := hpart (thirdChunk ::ₘ firstChunk ::ₘ 0) {secondChunk} (by decide)
    refine ⟨F, fun l hl => hF l ?_⟩
    rw [List.mem_pair] at hl
    obtain rfl | rfl := hl
    · exact Multiset.coe_eq_coe.mpr (List.Perm.swap _ _ _)
    · rfl
  · intro l hl
    apply hall
    exact (Multiset.coe_eq_coe.mpr hl).trans (by decide)

end Jkos.Page
