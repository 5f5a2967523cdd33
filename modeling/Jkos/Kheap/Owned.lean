import Jkos.Kheap.Free

/-!
# The owners of the heap

Every address of the kernel heap belongs to a free block, to the block behind a live
pointer, or to a block that the page tables themselves keep. `kmalloc`, `kfree` and the
accesses of clients to their own memory keep it that way.
-/

namespace Jkos.Page

open Exec Kheap

/-- What a client of `kmalloc` holds: the pointer, and the size it asked for. -/
structure Chunk where
  ptr : Word
  size : Word
  deriving DecidableEq

/-- The block that the header of a pointer records, as `kfree` reads it. -/
def recorded (s : Kernel) (ptr : Word) : Block :=
  match (load (ptr - sizeofBlock) 8 s).1 with
  | .ok vs => Block.ofBytes vs
  | .error _ => ⟨0, 0⟩

/-- The blocks behind pointers. -/
def blocks (s : Kernel) (live : Multiset Chunk) : Multiset Block :=
  live.map fun x => recorded s x.ptr

/-- The addresses of the kernel heap. -/
def heapSpan : Cover.Span := ⟨0xEFC00000, 0xFFC00000⟩

variable {g : Layout} {K : Set Slot} {s s' s'' : Kernel} {p q : Slot}
  {F F' : Multiset Block} {x : Chunk} {b blk : Block} {live : Multiset Chunk}
  {own : Multiset Block}

/-- A pointer whose header and payload lie in the block `b`, with the header in place and
the pages open to the kernel. -/
structure Live (g : Layout) (s : Kernel) (x : Chunk) (b : Block) : Prop where
  proper : b.Proper
  header : b.start.toNat + 8 ≤ x.ptr.toNat
  payload : x.ptr.toNat + x.size.toNat ≤ b.stop
  opened : ∀ a : Word, x.ptr.toNat - 8 ≤ a.toNat → a.toNat < x.ptr.toNat + x.size.toNat →
    ¬ ScratchPage s a ∧ Opened s (g.slot a)
  cells : ∀ k (hk : k < b.bytes.length),
    Cell s s.currentPageDir (x.ptr - 8 + BitVec.ofNat 32 k) b.bytes[k]

/-- Who owns the heap: free blocks `F`, live pointers, and blocks that are never freed. -/
structure Owned (g : Layout) (F : Multiset Block) (live : Multiset Chunk) (own : Multiset Block)
    (s : Kernel) : Prop where
  valid : Valid g True F s
  separate : Separate F
  chunks : ∀ x ∈ live, Live g s x (recorded s x.ptr)
  tiles : ∀ a, depthOf F a + (depthOf (blocks s live) a + depthOf own a) = heapSpan.at a
  clear : Clear (blocks s live) s

namespace Live

/-- The address of a header byte. -/
theorem toNat_header (h : Live g s x b) {k : Nat} (hk : k < 8) :
    (x.ptr - 8 + BitVec.ofNat 32 k).toNat = x.ptr.toNat - 8 + k := by
  have hhead := h.header
  have hlt := x.ptr.isLt
  have hsub : (x.ptr - 8).toNat = x.ptr.toNat - 8 := by
    rw [BitVec.toNat_sub_of_le]
    · rfl
    · rw [BitVec.le_def]
      change 8 ≤ x.ptr.toNat
      omega
  rw [toNat_add_ofNat (n := 8) (by rw [hsub]; omega) hk, hsub]

theorem heapAddr (h : Live g s x b) {a : Word} (h₁ : x.ptr.toNat - 8 ≤ a.toNat)
    (h₂ : a.toNat < x.ptr.toNat + x.size.toNat) :
    HeapAddr a ∧ b.start.toNat ≤ a.toNat ∧ a.toNat < b.stop := by
  have hhead := h.header
  have hpay := h.payload
  have hlo := h.proper.lo
  have hhi := h.proper.hi
  rw [Block.stop] at *
  exact ⟨⟨by omega, by omega⟩, by omega, by omega⟩

/-- Header and payload are open to every access of the kernel. -/
theorem ready (h : Live g s x b) (hl : Linked g s) {a eip : Word}
    (h₁ : x.ptr.toNat - 8 ≤ a.toNat) (h₂ : a.toNat < x.ptr.toNat + x.size.toNat)
    (heip : eip < s.kernelCodeEnd) (write : Bool) : Ready g s a write eip := by
  obtain ⟨hheap, -⟩ := h.heapAddr h₁ h₂
  obtain ⟨hscratch, hopen⟩ := h.opened a h₁ h₂
  exact ⟨_, (hl.lookup_heap hl.current hheap).1, hl.editable_heap hheap hscratch,
    hopen.granted heip write, hopen.copyable⟩

theorem ready_header (h : Live g s x b) (hl : Linked g s) {k : Nat} (hk : k < 8) :
    Ready g s (x.ptr - 8 + BitVec.ofNat 32 k) false (s.kernelCodeEnd - 1) := by
  have hk' := h.toNat_header hk
  have hhead := h.header
  refine h.ready hl ?_ ?_ (kernelEip_lt hl.code) false
  · omega
  · omega

theorem recorded_eq (h : Live g s x b) (hs : Sound g True s) (hl : Linked g s) :
    recorded s x.ptr = b := by
  have hload : load (x.ptr - sizeofBlock) 8 s = (.ok b.bytes, s) :=
    load_of_cells hs h.cells fun k hk => h.ready_header hl hk
  rw [recorded, hload]
  exact ofBytes_bytes b

end Live

namespace Owned

theorem depth_le_one (h : Owned g F live own s) (a : Nat) :
    depthOf F a + (depthOf (blocks s live) a + depthOf own a) ≤ 1 := by
  rw [h.tiles]
  exact Cover.Span.at_le_one _ _

/-- What is not free determines the free blocks. -/
theorem free_unique (h : Owned g F live own s) (h' : Owned g F' live own s')
    (hblocks : blocks s' live = blocks s live) : F' = F := by
  refine eq_of_depthOf h'.valid.heap.proper h.valid.heap.proper h'.valid.heap.once h'.separate
    h.separate fun a => ?_
  have htiles := h.tiles a
  have htiles' := h'.tiles a
  rw [hblocks] at htiles'
  omega

/-- A live pointer has a block of its own. -/
theorem allocated (h : Owned g F (x ::ₘ live) own s) :
    Allocated g F x.ptr (recorded s x.ptr) s := by
  have hx := h.chunks x (Multiset.mem_cons_self x live)
  have hblocks : ∀ a, depthOf (blocks s (x ::ₘ live)) a =
      (recorded s x.ptr).span.at a + depthOf (blocks s live) a := fun a => by
    rw [blocks, Multiset.map_cons, depthOf_cons, blocks]
  refine ⟨hx.proper, fun a => ?_, hx.cells, fun k hk => hx.ready_header h.valid.linked hk,
    h.clear.mono fun a => ?_⟩
  · have := h.depth_le_one a
    rw [hblocks] at this
    omega
  · rw [hblocks, depthOf_singleton]
    omega

end Owned

theorem Clear.setHeap {B : Multiset Block} (h : Clear B s) {h' : Heap} :
    Clear B ({ s with heap := h' } : Kernel) :=
  ⟨h.tables, h.dirs, h.scratch⟩

/-! ## `kmalloc` -/

variable {size start : Word} {palign : Nat} {got : Block} {c : Prop}

/-- `kmalloc` leaves the live pointers alone. -/
theorem Live.malloced (h : Live g s x b) (hm : Malloced g True F F' size palign start got s s')
    (hl : Linked g s)
    (hdisj : ∀ a : Nat, got.start.toNat ≤ a ∧ a < got.stop → ¬ (b.start.toNat ≤ a ∧ a < b.stop)) :
    Live g s' x b := by
  have hscr : ∀ a, ScratchPage s' a ↔ ScratchPage s a := fun a => by
    have h0 : s'.emptyPage0Addr = s.emptyPage0Addr := (congrArg Kernel.emptyPage0Addr hm.rest :)
    have h1 : s'.emptyPage1Addr = s.emptyPage1Addr := (congrArg Kernel.emptyPage1Addr hm.rest :)
    rw [ScratchPage, ScratchPage, h0, h1]
  have hcur : s'.currentPageDir = s.currentPageDir := (congrArg Kernel.currentPageDir hm.rest :)
  refine ⟨h.proper, h.header, h.payload, fun a h₁ h₂ => ?_, fun k hk => ?_⟩
  · obtain ⟨hscratch, hopen⟩ := h.opened a h₁ h₂
    obtain ⟨hheap, -⟩ := h.heapAddr h₁ h₂
    exact ⟨fun hs => hscratch ((hscr a).mp hs),
      hm.kept _ (hl.editable_heap hheap hscratch) hopen⟩
  · have hnat := h.toNat_header (k := k) hk
    have hhead := h.header
    change k < 8 at hk
    have hin : x.ptr.toNat - 8 ≤ (x.ptr - 8 + BitVec.ofNat 32 k).toNat := by omega
    have hin' : (x.ptr - 8 + BitVec.ofNat 32 k).toNat < x.ptr.toNat + x.size.toNat := by omega
    obtain ⟨hheap, hlo, hhi⟩ := h.heapAddr hin hin'
    rw [hcur]
    refine hm.other trivial _ _ hheap (h.opened _ hin hin').1 ?_ (h.cells k hk)
    by_contra hover
    rw [not_or, Nat.not_lt, Nat.not_le] at hover
    have hres := hm.reserved.header
    have hpay := hm.reserved.payload
    refine hdisj _ ⟨?_, ?_⟩ ⟨hlo, hhi⟩
    · omega
    · rw [Block.stop]
      omega

/-- The pointer that `kmalloc` returns is live. -/
theorem Malloced.live_new (hm : Malloced g True F F' size palign start got s s') :
    Live g s' ⟨start, size⟩ got := by
  have hcur : s'.currentPageDir = s.currentPageDir := (congrArg Kernel.currentPageDir hm.rest :)
  refine ⟨hm.reserved.kept, hm.reserved.header, hm.reserved.payload, fun a h₁ h₂ => ?_,
    fun k hk => ?_⟩
  · exact (hm.opened a h₁ h₂).2
  · rw [hcur]
    exact hm.header trivial k hk

theorem Owned.kmalloc_live (h : Owned g F live own s)
    (hm : Malloced g True F F' size palign start got s s') (hx : x ∈ live) :
    Live g s' x (recorded s x.ptr) := by
  refine (h.chunks x hx).malloced hm h.valid.linked fun a ha hb => ?_
  have hpos : 0 < depthOf (blocks s live) a :=
    depthOf_pos_of_mem (Multiset.mem_map_of_mem _ hx) hb.1 hb.2
  have hle := h.depth_le_one a
  rw [hm.reserved.depth, Cover.Span.at_of_mem (a := got.span) ha] at hle
  omega

/-- Blocks that a step leaves live are recorded as before. -/
theorem blocks_congr (hs : Sound g True s') (hl : Linked g s')
    (h : ∀ x ∈ live, Live g s' x (recorded s x.ptr)) : blocks s' live = blocks s live :=
  Multiset.map_congr rfl fun x hx => (h x hx).recorded_eq hs hl

theorem Owned.kmalloc (h : Owned g F live own s)
    (hm : Malloced g True F F' size palign start got s s') :
    Owned g F' (⟨start, size⟩ ::ₘ live) own s' := by
  have hs' := hm.valid.sound
  have hl' := hm.valid.linked
  have hlive := fun x (hx : x ∈ live) => h.kmalloc_live hm hx
  have hold := blocks_congr hs' hl' hlive
  have hnew := hm.live_new.recorded_eq hs' hl'
  have hblocks : ∀ a, depthOf (blocks s' (⟨start, size⟩ ::ₘ live)) a =
      got.span.at a + depthOf (blocks s live) a := fun a => by
    rw [blocks, Multiset.map_cons, depthOf_cons, ← blocks, hold, hnew]
  have hgot : Clear {got} s := h.valid.heap.toClear.mono fun a => by
    rw [depthOf_singleton, hm.reserved.depth]
    omega
  have hclear : Clear (blocks s' (⟨start, size⟩ ::ₘ live)) s := hgot.add h.clear fun a => by
    rw [hblocks, depthOf_singleton]
  refine ⟨hm.valid, hm.reserved.separate h.valid.heap.proper h.valid.heap.once h.separate, ?_,
    fun a => ?_, hclear.setHeap.congr hm.rest⟩
  · intro x hx
    obtain rfl | hx := Multiset.mem_cons.mp hx
    · rw [hnew]
      exact hm.live_new
    · rw [(hlive x hx).recorded_eq hs' hl']
      exact hlive x hx
  · rw [hblocks, ← h.tiles a, hm.reserved.depth]
    omega

/-! ## `kfree` -/

variable {freeStart freeEnd : Word}

/-- `kfree` leaves the pages alone that have an address outside the free blocks. -/
theorem Freed.page_eq (hf : Freed g c F F' blk freeStart freeEnd s s') (hl : Linked g s) {a : Word}
    (ha : HeapAddr a) (hout : ∀ m ∈ F', ¬ (m.start.toNat ≤ a.toNat ∧ a.toNat < m.stop)) :
    s'.page (g.slot a) = s.page (g.slot a) := by
  refine hf.cleared.kept _ fun i hi h₃ h₄ he => ?_
  obtain ⟨m, hm, -, -, hinside⟩ := Released.pages_inside hf.released
  obtain ⟨hmlo, hmhi⟩ := hinside i hi h₃ h₄
  have hproper := hf.released.free m hm
  have hmlo' := hproper.lo
  have hmhi' := hproper.hi
  rw [← Block.stop] at hmhi'
  have hpage := hl.slot_inj (Linked.shared_of_heap ha)
    (Linked.shared_of_heap (a := i) ⟨by omega, by omega⟩) he
  rw [hi] at hpage
  have hpage' := congrArg BitVec.toNat hpage
  rw [toNat_pageOf] at hpage'
  exact hout m hm ⟨by omega, by omega⟩

/-- `kfree` leaves the pointers alone whose blocks are not free afterwards. -/
theorem Live.freed (h : Live g s x b) (hf : Freed g True F F' blk freeStart freeEnd s s')
    (hl : Linked g s)
    (hdisj : ∀ m ∈ F', ∀ a : Nat, m.start.toNat ≤ a ∧ a < m.stop →
      ¬ (b.start.toNat ≤ a ∧ a < b.stop)) : Live g s' x b := by
  have hcur : s'.currentPageDir = s.currentPageDir := (congrArg Kernel.currentPageDir hf.rest :)
  have hdir : s'.dir = s.dir := (congrArg Kernel.dir hf.rest :)
  have h0 : s'.emptyPage0Addr = s.emptyPage0Addr := (congrArg Kernel.emptyPage0Addr hf.rest :)
  have h1 : s'.emptyPage1Addr = s.emptyPage1Addr := (congrArg Kernel.emptyPage1Addr hf.rest :)
  have hpage : ∀ a : Word, x.ptr.toNat - 8 ≤ a.toNat → a.toNat < x.ptr.toNat + x.size.toNat →
      s'.page (g.slot a) = s.page (g.slot a) := by
    intro a h₁ h₂
    obtain ⟨hheap, hin⟩ := h.heapAddr h₁ h₂
    exact hf.page_eq hl hheap fun m hm hmem => hdisj m hm _ hmem hin
  refine ⟨h.proper, h.header, h.payload, fun a h₁ h₂ => ?_, fun k hk => ?_⟩
  · obtain ⟨hscratch, hopen⟩ := h.opened a h₁ h₂
    rw [ScratchPage, h0, h1, Opened, hpage a h₁ h₂]
    exact ⟨hscratch, hopen⟩
  · have hnat := h.toNat_header (k := k) hk
    have hhead := h.header
    change k < 8 at hk
    have hin : x.ptr.toNat - 8 ≤ (x.ptr - 8 + BitVec.ofNat 32 k).toNat := by omega
    have hin' : (x.ptr - 8 + BitVec.ofNat 32 k).toNat < x.ptr.toNat + x.size.toNat := by omega
    obtain ⟨hheap, -⟩ := h.heapAddr hin hin'
    obtain ⟨q, hlook, hheld, hw⟩ := h.cells k hk
    have hq : q = g.slot (x.ptr - 8 + BitVec.ofNat 32 k) :=
      Option.some.inj (hlook.symm.trans (hl.lookup_heap hl.current hheap).1)
    refine ⟨q, ?_, ?_, ?_⟩
    · rw [lookup, hdir, hcur]
      exact hlook
    · rw [hq, hpage _ hin hin', ← hq]
      exact hheld
    · rw [hq, hpage _ hin hin', ← hq, hf.cleared.phys]
      exact hw

/-- Who owns an address after a pointer is freed. -/
theorem Owned.kfree_tiles (h : Owned g F (x ::ₘ live) own s)
    (hrel : Released F F' (recorded s x.ptr) freeStart freeEnd) (a : Nat) :
    depthOf F' a + (depthOf (blocks s live) a + depthOf own a) = heapSpan.at a := by
  have := h.tiles a
  rw [blocks, Multiset.map_cons, depthOf_cons, ← blocks] at this
  rw [hrel.depth]
  omega

/-- `kfree` leaves the other live pointers alone. -/
theorem Owned.kfree_live (h : Owned g F (x ::ₘ live) own s)
    (hf : Freed g True F F' (recorded s x.ptr) freeStart freeEnd s s') {y : Chunk} (hy : y ∈ live) :
    Live g s' y (recorded s y.ptr) := by
  refine (h.chunks y (Multiset.mem_cons_of_mem hy)).freed hf h.valid.linked fun m hm a ha hb => ?_
  have hpos := depthOf_pos_of_mem hm ha.1 ha.2
  have hpos' : 0 < depthOf (blocks s live) a :=
    depthOf_pos_of_mem (Multiset.mem_map_of_mem _ hy) hb.1 hb.2
  have hle := Cover.Span.at_le_one heapSpan a
  rw [← h.kfree_tiles hf.released] at hle
  omega

theorem Owned.kfree_blocks (h : Owned g F (x ::ₘ live) own s)
    (hf : Freed g True F F' (recorded s x.ptr) freeStart freeEnd s s') :
    blocks s' live = blocks s live :=
  blocks_congr hf.valid.sound hf.valid.linked fun _ hy => h.kfree_live hf hy

theorem Owned.kfree (h : Owned g F (x ::ₘ live) own s)
    (hf : Freed g True F F' (recorded s x.ptr) freeStart freeEnd s s') :
    Owned g F' live own s' := by
  have hold := h.kfree_blocks hf
  have hclear : Clear (blocks s' live) s := h.clear.mono fun a => by
    rw [hold, blocks, blocks, Multiset.map_cons, depthOf_cons]
    omega
  refine ⟨hf.valid, hf.released.separate h.separate, fun y hy => ?_, fun a => ?_,
    hclear.setHeap.congr hf.rest⟩
  · rw [(h.kfree_live hf hy).recorded_eq hf.valid.sound hf.valid.linked]
    exact h.kfree_live hf hy
  · rw [hold]
    exact h.kfree_tiles hf.released a

/-! ## Accesses of clients -/

/-- Accesses that leave the header alone keep a pointer live. -/
theorem Live.touch (h : Live g s x b) (ht : Touch g True K s s') (hl : Linked g s)
    (hpeek : ∀ k < 8, ∀ w, peek s s.currentPageDir (x.ptr - 8 + BitVec.ofNat 32 k) = some w →
      peek s' s.currentPageDir (x.ptr - 8 + BitVec.ofNat 32 k) = some w) : Live g s' x b := by
  refine ⟨h.proper, h.header, h.payload, fun a h₁ h₂ => ?_, fun k hk => ?_⟩
  · obtain ⟨hscratch, hopen⟩ := h.opened a h₁ h₂
    obtain ⟨hheap, -⟩ := h.heapAddr h₁ h₂
    exact ⟨fun hs => hscratch ((ht.work.scratchPage_iff a).mp hs),
      hopen.touch ht (hl.editable_heap hheap hscratch) hl.code⟩
  · obtain ⟨p, hlook, hedit, -⟩ := h.ready_header hl hk
    obtain ⟨q, hlook', hheld, -⟩ := id (h.cells k hk)
    obtain rfl : p = q := Option.some.inj (hlook.symm.trans hlook')
    have hcell := (cell_iff_peek hlook hheld).mp (h.cells k hk)
    rw [ht.work.current_eq]
    exact (cell_iff_peek (by rw [ht.work.lookup_eq, hlook]) (ht.held p hedit hheld)).mpr
      (hpeek k hk _ hcell)

theorem Owned.touch (h : Owned g F live own s) (ht : Touch g True K s s')
    (hpeek : ∀ x ∈ live, ∀ k < 8, ∀ w,
      peek s s.currentPageDir (x.ptr - 8 + BitVec.ofNat 32 k) = some w →
      peek s' s.currentPageDir (x.ptr - 8 + BitVec.ofNat 32 k) = some w) :
    Owned g F live own s' := by
  have hvalid := h.valid.work ht.work
  have hlive : ∀ x ∈ live, Live g s' x (recorded s x.ptr) := fun x hx =>
    (h.chunks x hx).touch ht h.valid.linked (hpeek x hx)
  have hold := blocks_congr hvalid.sound hvalid.linked hlive
  refine ⟨hvalid, h.separate, fun x hx => ?_, fun a => ?_, ?_⟩
  · rw [(hlive x hx).recorded_eq hvalid.sound hvalid.linked]
    exact hlive x hx
  · rw [hold]
    exact h.tiles a
  · rw [hold]
    exact h.clear.congr ht.work.rest

variable {a eip : Word}

/-- An address of the payload of one pointer is in the header of none. -/
theorem Owned.payload_ne_header (h : Owned g F live own s) {y : Chunk} (hx : x ∈ live)
    (hy : y ∈ live) (h₁ : x.ptr.toNat ≤ a.toNat) (h₂ : a.toNat < x.ptr.toNat + x.size.toNat)
    {k : Nat} (hk : k < 8) : y.ptr - 8 + BitVec.ofNat 32 k ≠ a := by
  intro he
  have hnat := (h.chunks y hy).toNat_header hk
  have hyhead := (h.chunks y hy).header
  rw [he] at hnat
  by_cases hxy : y = x
  · rw [hxy] at hnat hyhead
    omega
  · obtain ⟨rest, rfl⟩ := Multiset.exists_cons_of_mem hx
    have hy' := (Multiset.mem_cons.mp hy).resolve_left hxy
    obtain ⟨-, hxlo, hxhi⟩ := (h.chunks x hx).heapAddr (a := a) (by omega) h₂
    obtain ⟨-, hylo, hyhi⟩ := (h.chunks y hy).heapAddr (a := a) (by omega) (by omega)
    have hpos : 0 < depthOf (blocks s rest) a.toNat :=
      depthOf_pos_of_mem (Multiset.mem_map_of_mem _ hy') hylo hyhi
    have hle := h.depth_le_one a.toNat
    rw [blocks, Multiset.map_cons, depthOf_cons, ← blocks,
      Cover.Span.at_of_mem (a := (recorded s x.ptr).span) ⟨hxlo, hxhi⟩] at hle
    omega

/-- A client writes to its own memory. -/
theorem Owned.write_ends (h : Owned g F live own s) (hx : x ∈ live)
    (h₁ : x.ptr.toNat ≤ a.toNat) (h₂ : a.toNat < x.ptr.toNat + x.size.toNat)
    (heip : eip < s.kernelCodeEnd) (v : Byte) :
    Ends (writeByte a v eip) s
      (fun _ s' => Touch g True {g.slot a} s s' ∧ Owned g F live own s')
      (fun e _ => e = .noFreeFrame) := by
  have hl := h.valid.linked
  obtain ⟨hheap, -⟩ := (h.chunks x hx).heapAddr (a := a) (by omega) h₂
  obtain ⟨p, hlook, hp, hgrant, hcopy⟩ := (h.chunks x hx).ready hl (a := a) (by omega) h₂ heip true
  have hpa : p = g.slot a := Option.some.inj (hlook.symm.trans (hl.lookup_heap hl.current hheap).1)
  refine (writeByte_peek h.valid.sound hlook hp hgrant hcopy v).mono ?_ (fun _ _ h => h)
  rintro - s' ⟨htouch, -, -, hother⟩
  rw [← hpa]
  refine ⟨htouch, h.touch htouch fun y hy k hk w hw => ?_⟩
  obtain ⟨q, hlookq, hq, -⟩ := (h.chunks y hy).ready_header hl hk
  refine hother trivial _ _ q hlookq hq (fun hqp hoff => ?_) w hw
  -- the same entry and offset would be the same address
  rw [hqp] at hlookq
  exact h.payload_ne_header hx hy h₁ h₂ hk
    (eq_of_pageOf (hl.pageOf_eq_of_lookup hl.current hlookq hlook) hoff)

/-- The page of an address has a byte of a live block. -/
def InLivePage (s : Kernel) (live : Multiset Chunk) (a : Word) : Prop :=
  ∃ y : Nat, (pageOf a).toNat ≤ y ∧ y < (pageOf a).toNat + 4096 ∧ 0 < depthOf (blocks s live) y

theorem Owned.inLivePage (h : Owned g F live own s) (ha : InLivePage s live a) :
    HeapAddr a ∧ ¬ ScratchPage s a := by
  obtain ⟨y, hlo, hhi, hpos⟩ := ha
  have hspan : 0 < heapSpan.at y := by
    rw [← h.tiles]
    omega
  have hin : 0xEFC00000 ≤ y ∧ y < 0xFFC00000 := by
    by_contra hout
    have hzero : heapSpan.at y = 0 := if_neg hout
    omega
  rw [toNat_pageOf] at hlo hhi
  refine ⟨⟨by omega, by omega⟩, fun hscratch => ?_⟩
  have hy : (BitVec.ofNat 32 y).toNat = y := by
    rw [BitVec.toNat_ofNat]
    exact Nat.mod_eq_of_lt (by omega)
  have hpage : pageOf (BitVec.ofNat 32 y) = pageOf a := by
    apply Word.ext_toNat
    rw [toNat_pageOf, toNat_pageOf, hy]
    omega
  have hclear := h.clear.scratch (BitVec.ofNat 32 y) (by
    rw [ScratchPage, hpage]
    exact hscratch)
  rw [hy] at hclear
  omega

/-- A client reads from a page of a live block. -/
theorem Owned.read_ends (h : Owned g F live own s) (ha : InLivePage s live a)
    (heip : eip < s.kernelCodeEnd) :
    Ends (readByte a eip) s
      (fun _ s' => Touch g True {g.slot a} s s' ∧ Owned g F live own s')
      (fun _ _ => True) := by
  have hl := h.valid.linked
  obtain ⟨hheap, hscratch⟩ := h.inLivePage ha
  have hlook := (hl.lookup_heap hl.current hheap).1
  have hp := hl.editable_heap hheap hscratch
  by_cases hopen : (s.page (g.slot a)).allocable = true
  · have hgrant : Granted s (g.slot a) false eip :=
      ⟨⟨hopen, .inr heip⟩, fun e => absurd e (by decide)⟩
    refine (readByte_ends h.valid.sound hlook hp hgrant).mono ?_ (fun _ _ _ => trivial)
    rintro v s' ⟨htouch, bytes, hview, -, hsame⟩
    refine ⟨htouch, h.touch htouch fun y hy k hk w hw => ?_⟩
    obtain ⟨q, hlookq, hq, -, hcopy⟩ := (h.chunks y hy).ready_header hl hk
    by_cases hqp : q = g.slot a
    · rw [peek_eq_some hlookq] at hw
      obtain ⟨bytes', hbytes', hw⟩ := hw
      rw [peek_eq_some (q := q) (by rw [htouch.work.lookup_eq, hlookq]), hqp]
      rw [hqp] at hbytes' hcopy
      exact ⟨bytes, hview, by rw [hsame hcopy bytes' hbytes']; exact hw⟩
    · rw [htouch.work.peek_eq trivial h.valid.sound hlookq hq hqp]
      exact hw
  · rw [Bool.not_eq_true] at hopen
    exact Ends.bind ((access_of_closed h.valid.sound hlook hp hopen).mono
      (fun _ _ h => h) (fun _ _ h => h)) (fun _ _ h => h.elim)

end Jkos.Page
