import Jkos.Kheap.Boot
import Jkos.Page.Identity

/-!
# What `Page::init` hands over

`Jkos.Boot.Identity` follows `Page::init` until `kheap_finish_init` returns, with addresses that
are still physical. From then on the memory subsystem runs in the address space that was built.
Here the state at the end of the one is turned into the state at the beginning of the other, and
this state is `Booted`.
-/

namespace Jkos.Boot.Identity

open Page Kheap

/-- The state in which the memory subsystem starts. What the state of `Page::init` does not track,
such as the trees of the heap and the contents of memory, is taken from `k`. -/
def State.handover (c : State) (k : Kernel) : Kernel :=
  { k with
    frames := c.frames.map (·.setWidth 20)
    page := c.page
    tables := ((List.range 1024).map fun i => c.dir.tables (BitVec.ofNat 10 i)).filter (· ≠ null)
    dir := fun d => if d = c.currentPageDir then c.dir else k.dir d
    dirs := [c.currentPageDir]
    currentPageDir := c.currentPageDir
    emptyPage0Addr := null
    emptyPage1Addr := null
    emptyPage0 := ⟨null, 0⟩
    emptyPage1 := ⟨null, 0⟩
    kernelLowNtable := c.kernelLowNtable.toNat
    initFinished := true
    kheapFinishInit := true
    kheapStaticEnd := c.staticEnd
    userMemLow := c.userMemLow
    userMemHigh := c.userMemHigh }

/-- What `Page::init` has fixed. -/
def State.layout (c : State) : Layout where
  managed := {f | f ∈ c.frames.map (·.setWidth 20)}
  identity := {p | ∃ a : Word, 0x1000 ≤ a.toNat ∧ a.toNat < c.staticEnd.toNat ∧
    p = ⟨c.dir.tables (tbIdx a), tbOffset a⟩}
  low := c.kernelLowNtable.toNat
  table := c.dir.tables

/-- The tables of the kernel, and what they map, when `kheap_finish_init` returns. -/
structure Mapped (c : State) : Prop where
  tables : TablesOk (fun _ => True) c
  entry : ∀ a, c.entry a = selfMap c.staticEnd.toNat a
  table_iff : ∀ i, c.dir.tables i ≠ null ↔ c.layout.Shared i
  limit : c.staticEnd.toNat ≤ c.kernelLowNtable.toNat * 2 ^ 22
  aligned : c.staticEnd.toNat % 4096 = 0
  lowLe : c.kernelLowNtable.toNat ≤ heapBeginIdx
  phyaddr : c.dir.phyaddr = c.currentPageDir + 4096

variable {s b c : State} {k : Kernel} {n : Word} {p : Slot} {t : Word}

/-- The tables of the kernel heap and those of the first `k` pages. -/
theorem lowState_tables {o : Boot.State} {e : Word} {k : Nat} (hk : k ≠ 0) (i : BitVec 10) :
    (lowState { withHeap o with staticEnd := e } k).tables i = true ↔
      i.toNat ≤ k / 1024 ∨ 959 ≤ i.toNat ∧ i.toNat < 1023 := by
  change (decide (959 ≤ i.toNat ∧ i.toNat < 1023) ||
    (decide (k ≠ 0) && decide (i.toNat ≤ k / 1024))) = true ↔ _
  rw [Bool.or_eq_true, Bool.and_eq_true, decide_eq_true_iff, decide_eq_true_iff,
    decide_eq_true_iff, or_comm]
  exact or_congr_left (and_iff_right hk)

/-- The pages of static memory and the tables that map them, by its end. -/
theorem lowPages_end {e last : Word} (hlow : 0x1000 < e.toNat)
    (hfit : lowEnd e.toNat ≤ kernelHeapBegin.toNat) (hlast : last.toNat = lowEnd e.toNat) :
    last.toNat = 4096 * (lowPages e.toNat + 1) ∧ lowPages e.toNat ≠ 0 ∧
      lowPages e.toNat / 1024 + 1 ≤ 959 ∧
      (((last - 1) >>> 22) + 1).toNat = lowPages e.toNat / 1024 + 1 := by
  obtain ⟨hpages, -, hmod, hle⟩ := lowPages_facts (s := ⟨e, [], fun _ => false⟩) hlow hfit
  change 4096 * (lowPages e.toNat + 1) = lowEnd e.toNat at hpages
  change lowPages e.toNat % 1024 ≠ 0 at hmod
  change lowPages e.toNat + 1 ≤ 959 * 1024 at hle
  generalize lowPages e.toNat = k at *
  rw [← hlast] at hpages
  refine ⟨hpages.symm, by omega, by omega, ?_⟩
  rw [toNat_ntable (by omega)]
  omega

theorem lowPages_le (k : Nat) : 4096 * (k + 1) ≤ (k / 1024 + 1) * 2 ^ 22 := by
  omega

/-- `Page::init` leaves such tables when the reference counts lie behind the tables of the heap,
as those of a single region of memory do. -/
theorem mapped_of_init {m : Multiboot} {garbage : State}
    (hload : loadMap m (start m garbage) = (.ok (), s)) (hcnt : refCntLength s.frames = some n)
    (hbelow : BelowHeap s n) (hcounts : (withHeap s.outline).staticEnd ≤ refCntEnd s.outline n)
    (hmap : mapStatic s = (.ok (), b)) (hfin : finish b = (.ok (), c)) : Mapped c := by
  have hdir := loadMap_dir hload
  have hnone : s.outline.tables = fun _ => false := by
    funext i
    simp [State.outline, hdir, Directory.zero]
  obtain ⟨b', hmap', hend, hb, hntable⟩ := mapStatic_spec (P := fun _ => True) hbelow
    (stage_of_cleared hdir) hnone hcnt (fun _ _ => trivial) (fun _ _ _ => hcounts)
  obtain rfl : b' = b := congrArg Prod.snd (hmap'.symm.trans hmap)
  obtain ⟨frames, rfl⟩ := finish_eq hfin
  obtain ⟨hlast, hne, hle, hcount⟩ := lowPages_end hbelow.refCnt hbelow.limit hend
  rw [← hntable] at hcount
  refine ⟨⟨hb.tables.aligned, hb.tables.inside, hb.tables.injective, hb.tables.entries⟩,
    fun a => hb.entry a trivial, fun i => ?_, ?_, ?_, ?_, rfl⟩
  · have htables : decide (b'.dir.tables i ≠ null) = _ :=
      congrFun (congrArg Boot.State.tables hb.outline) i
    have hshared := lowState_tables (o := s.outline) (e := refCntEnd s.outline n) hne i
    rw [← htables, decide_eq_true_iff] at hshared
    change _ ↔ i.toNat < b'.kernelLowNtable.toNat ∨ heapBeginIdx ≤ i.toNat ∧ i.toNat < heapEndIdx
    rw [hcount, heapBeginIdx_eq, heapEndIdx_eq]
    exact hshared.trans (or_congr_left Nat.lt_succ_iff.symm)
  · change b'.staticEnd.toNat ≤ b'.kernelLowNtable.toNat * 2 ^ 22
    rw [hcount, hlast]
    exact lowPages_le _
  · change b'.staticEnd.toNat % 4096 = 0
    rw [hlast]
    exact Nat.mul_mod_right 4096 _
  · change b'.kernelLowNtable.toNat ≤ heapBeginIdx
    rw [hcount, heapBeginIdx_eq]
    exact hle

/-! ## The entries of the tables -/

theorem mem_tables : t ∈ (c.handover k).tables ↔ t ≠ null ∧ ∃ i, c.dir.tables i = t := by
  rw [State.handover, List.mem_filter, List.mem_map, decide_eq_true_eq, and_comm]
  refine and_congr_right fun _ => ⟨fun ⟨i, _, h⟩ => ⟨_, h⟩, fun ⟨i, h⟩ => ⟨i.toNat, ?_, ?_⟩⟩
  · exact List.mem_range.mpr i.isLt
  · rw [BitVec.ofNat_toNat, BitVec.setWidth_eq]
    exact h

/-- The first address that an entry maps. -/
def addressOf (i j : BitVec 10) : Word := BitVec.ofNat 32 (i.toNat * 2 ^ 22 + j.toNat * 4096)

theorem toNat_addressOf (i j : BitVec 10) :
    (addressOf i j).toNat = i.toNat * 2 ^ 22 + j.toNat * 4096 := by
  have hi := i.isLt
  have hj := j.isLt
  rw [addressOf, BitVec.toNat_ofNat]
  exact Nat.mod_eq_of_lt (by omega)

theorem idx_addressOf (i j : BitVec 10) :
    tbIdx (addressOf i j) = i ∧ tbOffset (addressOf i j) = j := by
  have hi := i.isLt
  have hj := j.isLt
  constructor <;> apply BitVec.eq_of_toNat_eq
  · rw [toNat_tbIdx, toNat_addressOf]
    omega
  · rw [toNat_tbOffset, toNat_addressOf]
    omega

namespace Mapped

variable (h : Mapped c)
include h

/-- An entry of the identity map, and its frame. -/
theorem page_identity {a : Word} (hlo : 0x1000 ≤ a.toNat) (hhi : a.toNat < c.staticEnd.toNat) :
    c.dir.tables (tbIdx a) ≠ null ∧
      c.page ⟨c.dir.tables (tbIdx a), tbOffset a⟩ = selfEntry a TableEntry.zero := by
  have hlimit := h.limit
  have hne : c.dir.tables (tbIdx a) ≠ null := by
    refine (h.table_iff _).mpr (.inl ?_)
    change (tbIdx a).toNat < c.kernelLowNtable.toNat
    rw [toNat_tbIdx]
    omega
  have hentry := h.entry a
  rw [State.entry, if_neg hne, selfMap, if_pos ⟨hlo, hhi⟩] at hentry
  exact ⟨hne, hentry⟩

/-- The other entries are those of cleared tables. -/
theorem page_ordinary (hmem : p.table ∈ (c.handover k).tables) (hid : p ∉ c.layout.identity) :
    c.page p = TableEntry.zero := by
  obtain ⟨hne, i, hi⟩ := mem_tables.mp hmem
  obtain ⟨hidx, hoff⟩ := idx_addressOf i p.idx
  have hslot : p = ⟨c.dir.tables (tbIdx (addressOf i p.idx)), tbOffset (addressOf i p.idx)⟩ := by
    rw [hidx, hoff, hi]
  have hentry := h.entry (addressOf i p.idx)
  rw [State.entry, hidx, hi, if_neg hne, hoff] at hentry
  refine hentry.trans (if_neg fun hin => hid ⟨addressOf i p.idx, hin.1, hin.2, hslot⟩)

theorem mem_tables_of_identity (hid : p ∈ c.layout.identity) :
    p.table ∈ (c.handover k).tables := by
  obtain ⟨a, hlo, hhi, rfl⟩ := hid
  exact mem_tables.mpr ⟨(h.page_identity hlo hhi).1, _, rfl⟩

end Mapped

/-! ## The boot is complete -/

/-- What the rest of the boot has left: a stack of different frames, none of which static memory
covers, the trees of `kheap_init`, and the directory in static memory. -/
structure HandedOver (c : State) (k : Kernel) : Prop where
  nodup : c.frames.Nodup
  above : ∀ f ∈ c.frames, c.staticEnd >>> 12 < f
  small : ∀ f ∈ c.frames, f.toNat < 2 ^ 20
  code : k.kernelCodeEnd ≠ 0
  trees : ∃ (st : Statics) (mem : _) (mem' : _), initTrees (st.newHeap mem mem') = (.ok (), k.heap)
  dir : 0x1000 ≤ c.currentPageDir.toNat ∧ c.currentPageDir.toNat + 0x2004 ≤ c.staticEnd.toNat

section Booted

variable (h : Mapped c) (hk : HandedOver c k)
include hk

/-- A frame that is handed out lies above static memory. -/
theorem HandedOver.lt_frame {f : Frame} (hf : f ∈ c.layout.managed) :
    c.staticEnd.toNat / 4096 < f.toNat := by
  obtain ⟨w, hw, rfl⟩ := List.mem_map.mp hf
  have habove : (c.staticEnd >>> 12).toNat < w.toNat := hk.above w hw
  have hsmall := hk.small w hw
  rw [BitVec.toNat_ushiftRight, Nat.shiftRight_eq_div_pow] at habove
  rw [BitVec.toNat_setWidth, Nat.mod_eq_of_lt hsmall]
  exact habove

include h

theorem holders_empty {f : Frame} (hf : f ∈ c.layout.managed) :
    holders (c.handover k) f = ∅ := by
  have hlt := hk.lt_frame hf
  refine Set.eq_empty_iff_forall_notMem.mpr fun p hp => ?_
  obtain ⟨hcounted, haddr⟩ := hp
  have haddr : (c.page p).addr = f := haddr
  by_cases hid : p ∈ c.layout.identity
  · obtain ⟨a, hlo, hhi, rfl⟩ := hid
    rw [(h.page_identity hlo hhi).2] at haddr
    have hnat := congrArg BitVec.toNat haddr
    change ((a >>> 12).setWidth 20).toNat = _ at hnat
    rw [BitVec.toNat_setWidth, BitVec.toNat_ushiftRight, Nat.shiftRight_eq_div_pow] at hnat
    omega
  · rw [h.page_ordinary hcounted.1 hid] at haddr
    have hnat : (0 : Frame).toNat = f.toNat := congrArg BitVec.toNat haddr
    change 0 = _ at hnat
    omega

theorem handover_frameInv : FrameInv c.layout (c.handover k) := by
  refine ⟨?_, fun f hf => hf, fun hzero => ?_, fun t ht => ?_, fun p hp hid => .inl ?_,
    fun p hid => ⟨h.mem_tables_of_identity hid, fun hmem => ?_, ?_⟩,
    fun f hf => holders_empty h hk hf, fun f hf hnot => absurd hf hnot, fun hid => ?_,
    fun hid => ?_⟩
  · refine List.Nodup.map_on (fun f hf g hg he => ?_) hk.nodup
    have hnat := congrArg BitVec.toNat he
    rw [BitVec.toNat_setWidth, BitVec.toNat_setWidth, Nat.mod_eq_of_lt (hk.small f hf),
      Nat.mod_eq_of_lt (hk.small g hg)] at hnat
    exact BitVec.eq_of_toNat_eq hnat
  · exact Nat.not_lt_zero _ (hk.lt_frame hzero)
  · obtain ⟨-, i, rfl⟩ := mem_tables.mp ht
    exact Nat.dvd_of_mod_eq_zero (h.tables.aligned i)
  · change (c.page p).addr = 0
    rw [h.page_ordinary hp.1 hid]
    rfl
  · -- a holder of a frame that is handed out
    by_cases hzero : (c.page p).addr = 0
    · have hlt := hk.lt_frame hmem
      change _ < (c.page p).addr.toNat at hlt
      rw [hzero] at hlt
      exact Nat.not_lt_zero _ hlt
    · have hnone := holders_empty h hk hmem
      have hcounted : Counted (c.handover k) p := by
        obtain ⟨hne, -⟩ := mem_tables.mp (h.mem_tables_of_identity (k := k) hid)
        exact ⟨h.mem_tables_of_identity hid, fun e => hne (congrArg Slot.table e),
          fun e => hne (congrArg Slot.table e)⟩
      exact Set.notMem_empty p (hnone ▸ ⟨hcounted, rfl⟩)
  · obtain ⟨a, hlo, hhi, rfl⟩ := hid
    exact congrArg TableEntry.allocable (h.page_identity hlo hhi).2
  · exact (mem_tables.mp (h.mem_tables_of_identity (k := k) hid)).1 rfl
  · exact (mem_tables.mp (h.mem_tables_of_identity (k := k) hid)).1 rfl

omit hk in
theorem handover_editable (hp : Editable c.layout (c.handover k) p) :
    (c.handover k).page p = TableEntry.zero :=
  h.page_ordinary hp.counted.1 hp.ordinary

theorem handover_linked : Linked c.layout (c.handover k) := by
  have hdir : ∀ d ∈ (c.handover k).dirs, (c.handover k).dir d = c.dir := fun d hd =>
    if_pos (List.mem_singleton.mp hd)
  have hown : ∀ d ∈ (c.handover k).dirs, ∀ i, ¬ c.layout.Shared i →
      ((c.handover k).dir d).tables i = null := fun d hd i hi => by
    rw [hdir d hd]
    exact not_not.mp fun hne => hi ((h.table_iff i).mp hne)
  have hnull : null ∉ (c.handover k).tables := fun hmem => (mem_tables.mp hmem).1 rfl
  refine ⟨rfl, rfl, hk.code, rfl, h.lowLe, List.mem_cons_self, fun i hi => ?_,
    fun i j hi _ he => h.tables.injective i j trivial trivial ((h.table_iff i).mpr hi) he,
    fun d hd i _ => by rw [hdir d hd]; rfl,
    ⟨fun d hd i hi hne => absurd (hown d hd i hi) hne,
      fun d hd _ _ i _ hi _ hne => absurd (hown d hd i hi) hne⟩,
    fun p hid => ?_, fun hmem => absurd hmem hnull, fun hmem => absurd hmem hnull⟩
  · have hne := (h.table_iff i).mpr hi
    exact ⟨mem_tables.mpr ⟨hne, i, rfl⟩, hne⟩
  · obtain ⟨a, hlo, hhi, rfl⟩ := hid
    refine ⟨a, ⟨hlo, ?_⟩, ?_, rfl⟩
    · change (pageOf a).toNat < c.staticEnd.toNat
      rw [toNat_pageOf]
      omega
    · have hlimit := h.limit
      change (tbIdx a).toNat < c.kernelLowNtable.toNat
      rw [toNat_tbIdx]
      omega

/-- The memory subsystem starts from a state that has booted. -/
theorem booted_of_mapped : Booted c.layout (c.handover k) := by
  have hdir : (c.handover k).dir c.currentPageDir = c.dir := if_pos rfl
  refine ⟨⟨handover_frameInv h hk, fun p hp => ?_, fun _ p hp hheld => ?_⟩, handover_linked h hk,
    hk.trees, h.limit, rfl, fun t ht => ?_, fun i hi => ?_, fun t ht => ?_, hk.dir,
    fun a ha => ?_, fun i => ?_, ?_, ⟨rfl, rfl⟩, fun a ha => ?_⟩
  · rw [handover_editable h hp]
    exact shape_of_freed rfl rfl
  · rw [handover_editable h hp] at hheld
    exact absurd rfl hheld
  · obtain ⟨hne, i, rfl⟩ := mem_tables.mp ht
    exact ⟨i, (h.table_iff i).mp hne, rfl⟩
  · change ((c.handover k).dir c.currentPageDir).tables i = null
    rw [hdir]
    exact not_not.mp fun hne => hi ((h.table_iff i).mp hne)
  · obtain ⟨hne, i, rfl⟩ := mem_tables.mp ht
    have haligned := h.tables.aligned i
    have hpos : (c.dir.tables i).toNat ≠ 0 := fun e => hne (BitVec.eq_of_toNat_eq e)
    exact ⟨by omega, h.tables.inside i trivial hne⟩
  · obtain ⟨hlo, hhi⟩ := ha
    change (pageOf a).toNat < c.staticEnd.toNat at hhi
    have haligned := h.aligned
    rw [toNat_pageOf] at hhi
    have hpage := (h.page_identity hlo (by omega)).2
    refine ⟨⟨a, hlo, by omega, rfl⟩, ?_, ?_⟩
    · exact congrArg TableEntry.present hpage
    · exact congrArg TableEntry.addr hpage
  · change ((c.handover k).dir c.currentPageDir).entries i =
      if ((c.handover k).dir c.currentPageDir).tables i = null then _
      else ⟨true, true, true, (((c.handover k).dir c.currentPageDir).tables i >>> 12).setWidth 20⟩
    rw [hdir]
    exact h.tables.entries i
  · change ((c.handover k).dir c.currentPageDir).phyaddr = _
    rw [hdir]
    exact h.phyaddr
  · have hshared : c.layout.Shared (tbIdx a) := .inr ha.idx
    have hhi : ¬ (0x1000 ≤ a.toNat ∧ a.toNat < c.staticEnd.toNat) := fun hin => by
      have hlimit := h.limit
      have hle := h.lowLe
      rw [heapBeginIdx_eq] at hle
      have := ha.1
      omega
    have hentry := h.entry a
    rw [State.entry, if_neg ((h.table_iff _).mpr hshared), selfMap, if_neg hhi] at hentry
    exact congrArg TableEntry.addr hentry

end Booted

/-! ## A kernel that has booted -/

/-- A directory whose entries point to its tables. -/
def linked (tables : BitVec 10 → Word) (phyaddr : Word) : Directory where
  tables := tables
  entries i := if tables i = null then ⟨false, false, false, 0⟩
    else ⟨true, true, true, (tables i >>> 12).setWidth 20⟩
  phyaddr := phyaddr

theorem linked_zero : linked (fun _ => null) null = Directory.zero := by
  simp only [linked, if_pos]
  rfl

/-- A machine with 3 MB of memory, of which the kernel image takes two thirds. -/
def bootMap : Multiboot := ⟨[⟨0x100000, 0x237000, true⟩], none, 0x2DF000⟩

/-- The first `k` tables of the kernel heap. -/
def bootTables (k : Nat) (i : BitVec 10) : Word :=
  if 959 ≤ i.toNat ∧ i.toNat < 959 + k then BitVec.ofNat 32 (0x2E3000 + 4096 * (i.toNat - 959))
  else null

/-- When the heap has `k` tables. -/
def bootHeapStage (k : Nat) : State where
  staticEnd := if k = 0 then 0x2E2CE0 else BitVec.ofNat 32 (0x2E3000 + 4096 * k)
  frames := framesBetween 0x2E3 0x336
  currentPageDir := 0x2E0000
  dir := linked (bootTables k) null
  page _ := TableEntry.zero
  kernelLowNtable := 0
  userMemLow := 0
  userMemHigh := 0

/-- The table of static memory, and those of the heap. -/
def bootTable (i : BitVec 10) : Word := if i = 0 then 0x324000 else bootTables 64 i

/-- The first `k` entries of the table of static memory. -/
def bootPage (k : Nat) (p : Slot) : TableEntry :=
  if p.table = 0x324000 ∧ 1 ≤ p.idx.toNat ∧ p.idx.toNat < k + 1 then
    ⟨true, true, false, false, 0, p.idx.setWidth 20⟩
  else TableEntry.zero

/-- When `k` pages of static memory are mapped. -/
def bootLowStage (k : Nat) : State where
  staticEnd := if k = 0 then 0x32314C else 0x325000
  frames := framesBetween 0x2E3 0x336
  currentPageDir := 0x2E0000
  dir := linked (if k = 0 then bootTables 64 else bootTable) null
  page := bootPage k
  kernelLowNtable := 0
  userMemLow := 0
  userMemHigh := 0

/-- What `Page::init` has built when `kheap_finish_init` returns. -/
def bootState : State where
  staticEnd := 0x325000
  frames := framesBetween 0x326 0x336
  currentPageDir := 0x2E0000
  dir := linked bootTable 0x2E1000
  page := bootPage 0x324
  kernelLowNtable := 1
  userMemLow := 0x400000
  userMemHigh := 0xEFBFFFFF

/-- A new table is linked. -/
theorem addTable_dir {s : State} {addr : Word} {tables : BitVec 10 → Word} {phyaddr : Word}
    (hdir : s.dir = linked tables phyaddr) (hne : getAligned s.staticEnd 12 ≠ null) :
    (s.addTable addr).dir = linked
      (fun j => if j = tbIdx addr then getAligned s.staticEnd 12 else tables j) phyaddr := by
  simp only [State.addTable, hdir, linked, Directory.mk.injEq, true_and, and_true]
  funext j
  by_cases hj : j = tbIdx addr
  · simp only [if_pos hj, if_neg hne]
  · simp only [if_neg hj]

theorem bootMap_ascending : bootMap.Ascending := ⟨by decide, by decide⟩

theorem bootMap_stack : bootMap.stack = framesBetween 0x2E3 0x336 := by
  rw [Multiboot.stack_of_single (by decide : bootMap.providers = bootMap.regions)]
  rfl

/-- Without modules the directory is the first object of static memory. -/
theorem loadMap_of_noModule {m : Multiboot} {s : State} {o : Boot.State} (hmod : m.modEnd = none)
    (hdir : s.dir = Directory.zero) (h : Boot.loadMap m s.outline = (.ok (), o)) :
    loadMap m s = (.ok (), { s with
      staticEnd := o.staticEnd
      frames := o.frames
      currentPageDir := getAligned s.staticEnd 12 }) := by
  obtain ⟨_, o₁, hmodule, h⟩ := Exec.bind_eq_ok h
  rw [hmod] at hmodule
  cases hmodule
  rw [Exec.bind_ok (kmalloc_apply _ _ _)] at h
  have hnone : onOutline (preserveModule m.modEnd) s = (.ok (), s) := by
    rw [hmod]
    rfl
  rw [loadMap, Exec.bind_ok hnone, Exec.bind_ok (onOutline_ok (kmalloc_apply _ _ _)),
    Exec.bind_ok (Exec.modify_apply _ _)]
  simp only [← hdir]
  exact onOutline_ok h

theorem bootTables_zero : bootTables 0 = fun _ => null := by
  funext i
  exact if_neg (by omega)

theorem boot_loadMap : loadMap bootMap (start bootMap cleared) = (.ok (), bootHeapStage 0) := by
  have hrun := loadMap_eq bootMap_ascending
    (show memsize 0 bootMap.mmap = Except.ok 0x337000 from rfl)
  rw [loadMap_of_noModule rfl rfl (start_cleared bootMap ▸ hrun), bootMap_stack, bootHeapStage,
    bootTables_zero, linked_zero]
  rfl

/-! ### The tables of the heap -/

theorem toNat_heapIdx {k : Nat} (hk : k < 65536) :
    (tbIdx (BitVec.ofNat 32 (0xEFC00000 + 4096 * k))).toNat = 959 + k / 1024 := by
  have hidx := toNat_tableIdx (n := 0xEFC00000 + 4096 * k) (by omega)
  change (tbIdx (BitVec.ofNat 32 (0xEFC00000 + 4096 * k))).toNat = _ at hidx
  omega

theorem bootTables_ne_null {k : Nat} {i : BitVec 10} (hlo : 959 ≤ i.toNat)
    (hhi : i.toNat < 959 + k) : bootTables k i ≠ null := by
  rw [bootTables, if_pos ⟨hlo, hhi⟩]
  intro heq
  have hnat := congrArg BitVec.toNat heq
  have hlt := i.isLt
  rw [BitVec.toNat_ofNat] at hnat
  change _ = 0 at hnat
  omega

theorem bootHeapStage_end {c : Nat} (hc : c < 64) :
    getAligned (bootHeapStage c).staticEnd 12 = BitVec.ofNat 32 (0x2E3000 + 4096 * c) := by
  by_cases hzero : c = 0
  · rw [hzero]
    decide
  · simp only [bootHeapStage, if_neg hzero]
    exact getAligned_ofNat (by omega) (by omega)

theorem bootHeapStage_grow {c : Nat} {addr : Word} (hc : c < 64)
    (hidx : (tbIdx addr).toNat = 959 + c) :
    (bootHeapStage c).addTable addr = bootHeapStage (c + 1) := by
  have hend := bootHeapStage_end hc
  have hne : getAligned (bootHeapStage c).staticEnd 12 ≠ null := by
    rw [hend]
    intro heq
    have hnat := congrArg BitVec.toNat heq
    rw [BitVec.toNat_ofNat] at hnat
    change _ = 0 at hnat
    omega
  have hdir : ((bootHeapStage c).addTable addr).dir = (bootHeapStage (c + 1)).dir := by
    rw [addTable_dir rfl hne]
    refine congrArg (linked · null) (funext fun i => ?_)
    have hi : i = tbIdx addr ↔ i.toNat = 959 + c := by
      rw [← BitVec.toNat_inj, hidx]
    simp only [hi, hend, bootTables]
    by_cases hlast : i.toNat = 959 + c
    · rw [if_pos hlast, if_pos (by omega), hlast, Nat.add_sub_cancel_left]
    · rw [if_neg hlast]
      exact if_congr (by omega) rfl rfl
  have hlast : getAligned (bootHeapStage c).staticEnd 12 + 4096 =
      (bootHeapStage (c + 1)).staticEnd := by
    rw [hend, bootHeapStage, if_neg (Nat.succ_ne_zero c), Nat.mul_succ, ← Nat.add_assoc]
    exact (BitVec.ofNat_add _ 4096).symm
  have hpage : (fun q : Slot => if q.table = getAligned (bootHeapStage c).staticEnd 12 then
      TableEntry.zero else TableEntry.zero) = fun _ => TableEntry.zero := funext fun _ => ite_self _
  rw [State.addTable] at hdir ⊢
  simp only at hdir ⊢
  rw [hdir, hlast]
  exact congrArg (fun page => { bootHeapStage (c + 1) with page := page }) hpage

theorem boot_heapTables :
    forPages (fun _ => kernelHeapEnd) (fun i => do let _ ← getPage i) loopBound kernelHeapBegin
      (bootHeapStage 0) = (.ok (), bootHeapStage 64) := by
  obtain ⟨s', hrun, rfl⟩ : ∃ s', forPages (fun _ => kernelHeapEnd) (fun i => do let _ ← getPage i)
      loopBound kernelHeapBegin (bootHeapStage 0) = (.ok (), s') ∧ s' = bootHeapStage 64 := by
    apply forPages_returns (fun k s => s = bootHeapStage ((k + 1023) / 1024)) (n := 65536)
    · rintro k hk _ rfl
      rw [heapPage]
      refine ⟨heapPage_lt hk, ?_⟩
      have hidx := toNat_heapIdx hk
      by_cases hmod : k % 1024 = 0
      · have hcount : (k + 1023) / 1024 = k / 1024 := by omega
        have hnull : (bootHeapStage ((k + 1023) / 1024)).dir.tables
            (tbIdx (BitVec.ofNat 32 (0xEFC00000 + 4096 * k))) = null :=
          if_neg (by rw [hidx, hcount]; omega)
        refine ⟨_, Exec.bind_ok (getPage_of_null hnull), ?_⟩
        rw [bootHeapStage_grow (by omega) (by omega)]
        congr 1
        omega
      · have hsome : (bootHeapStage ((k + 1023) / 1024)).dir.tables
            (tbIdx (BitVec.ofNat 32 (0xEFC00000 + 4096 * k))) ≠ null :=
          bootTables_ne_null (by omega) (by omega)
        refine ⟨_, Exec.bind_ok (getPage_of_table hsome), ?_⟩
        congr 1
        omega
    · intro s hs
      decide
    · rw [loopBound]
      decide
    · rfl
  exact hrun

/-! ### The table of static memory -/

theorem toNat_lowIdx {k : Nat} (hk : k < 0x324) :
    tbIdx (BitVec.ofNat 32 (4096 * (k + 1))) = 0 ∧
      tbOffset (BitVec.ofNat 32 (4096 * (k + 1))) = BitVec.ofNat 10 (k + 1) := by
  have hnat : (BitVec.ofNat 32 (4096 * (k + 1))).toNat = 4096 * (k + 1) := by
    rw [BitVec.toNat_ofNat]
    exact Nat.mod_eq_of_lt (by omega)
  constructor <;> apply BitVec.eq_of_toNat_eq
  · rw [toNat_tbIdx, hnat]
    change _ = 0
    omega
  · rw [toNat_tbOffset, hnat, BitVec.toNat_ofNat]
    omega

theorem bootPage_zero : bootPage 0 = fun _ => TableEntry.zero := by
  funext p
  exact if_neg (by omega)

/-- The next entry of the table of static memory. -/
theorem bootPage_succ {k : Nat} (hk : k < 0x324) :
    (fun q => if q = (⟨0x324000, BitVec.ofNat 10 (k + 1)⟩ : Slot) then
      selfEntry (BitVec.ofNat 32 (4096 * (k + 1))) (bootPage k ⟨0x324000, BitVec.ofNat 10 (k + 1)⟩)
      else bootPage k q) = bootPage (k + 1) := by
  have hnat : (BitVec.ofNat 10 (k + 1)).toNat = k + 1 := by
    rw [BitVec.toNat_ofNat]
    exact Nat.mod_eq_of_lt (by omega)
  have hframe : ((BitVec.ofNat 32 (4096 * (k + 1))) >>> 12).setWidth 20 =
      (BitVec.ofNat 10 (k + 1)).setWidth 20 := by
    apply BitVec.eq_of_toNat_eq
    rw [BitVec.toNat_setWidth, BitVec.toNat_setWidth, BitVec.toNat_ushiftRight, hnat,
      BitVec.toNat_ofNat, Nat.shiftRight_eq_div_pow]
    omega
  have hfresh : bootPage k ⟨0x324000, BitVec.ofNat 10 (k + 1)⟩ = TableEntry.zero :=
    if_neg fun h => by
      rw [hnat] at h
      omega
  funext q
  by_cases hq : q = ⟨0x324000, BitVec.ofNat 10 (k + 1)⟩
  · have hin : q.table = 0x324000 ∧ 1 ≤ q.idx.toNat ∧ q.idx.toNat < k + 1 + 1 := by
      rw [hq, hnat]
      exact ⟨rfl, by omega, by omega⟩
    rw [if_pos hq, hfresh, bootPage, if_pos hin, selfEntry, hframe, hq]
    rfl
  · have hiff : (q.table = 0x324000 ∧ 1 ≤ q.idx.toNat ∧ q.idx.toNat < k + 1) ↔
        (q.table = 0x324000 ∧ 1 ≤ q.idx.toNat ∧ q.idx.toNat < k + 1 + 1) := by
      refine and_congr_right fun htable => ?_
      have hne : q.idx.toNat ≠ k + 1 := fun heq => hq (by
        rw [← htable, ← heq, BitVec.ofNat_toNat, BitVec.setWidth_eq])
      omega
    rw [if_neg hq, bootPage, bootPage, if_congr hiff rfl rfl]

theorem bootLowStage_first :
    (bootLowStage 0).addTable 0x1000 = { bootLowStage 1 with page := bootPage 0 } := by
  have hdir : ((bootLowStage 0).addTable 0x1000).dir = linked bootTable null := by
    rw [addTable_dir rfl (by decide)]
    refine congrArg (linked · null) (funext fun i => ?_)
    exact if_congr (by rw [show tbIdx 0x1000 = 0 by decide]) (by decide) rfl
  have hpage : (fun q : Slot => if q.table = getAligned (bootLowStage 0).staticEnd 12 then
      TableEntry.zero else bootPage 0 q) = bootPage 0 := by
    rw [bootPage_zero]
    exact funext fun _ => ite_self _
  rw [State.addTable] at hdir ⊢
  simp only at hdir ⊢
  rw [hdir]
  exact congrArg (fun page => { bootLowStage 1 with page := page }) hpage

/-- The first page of static memory puts the table in place. -/
theorem boot_getPage {k : Nat} (hk : k < 0x324) :
    getPage (BitVec.ofNat 32 (4096 * (k + 1))) (bootLowStage k) =
      (.ok ⟨0x324000, BitVec.ofNat 10 (k + 1)⟩,
        { bootLowStage (k + 1) with page := bootPage k }) := by
  obtain ⟨hidx, hoff⟩ := toNat_lowIdx hk
  by_cases hzero : k = 0
  · subst hzero
    have hnull : (bootLowStage 0).dir.tables (tbIdx (BitVec.ofNat 32 (4096 * (0 + 1)))) = null := by
      rw [hidx]
      decide
    rw [getPage_of_null hnull, hoff]
    exact congrArg (Prod.mk _) bootLowStage_first
  · have hsome : (bootLowStage k).dir.tables (tbIdx (BitVec.ofNat 32 (4096 * (k + 1)))) =
        0x324000 := by
      rw [hidx]
      simp only [bootLowStage, if_neg hzero]
      decide
    rw [getPage_of_table (by rw [hsome]; decide), hsome, hoff]
    simp only [bootLowStage, if_neg hzero, if_neg (Nat.succ_ne_zero k)]

theorem boot_mapSelf {k : Nat} (hk : k < 0x324) :
    mapSelf (BitVec.ofNat 32 (4096 * (k + 1))) (bootLowStage k) =
      (.ok (), bootLowStage (k + 1)) := by
  rw [mapSelf, Exec.bind_ok (boot_getPage hk), Exec.modify_apply]
  exact congrArg (fun page => (Except.ok (), { bootLowStage (k + 1) with page := page }))
    (bootPage_succ hk)

theorem boot_lowTables :
    forPages (·.staticEnd) mapSelf loopBound 0x1000 (bootLowStage 0) =
      (.ok (), bootLowStage 0x324) := by
  obtain ⟨s', hrun, rfl⟩ : ∃ s', forPages (·.staticEnd) mapSelf loopBound 0x1000 (bootLowStage 0) =
      (.ok (), s') ∧ s' = bootLowStage 0x324 := by
    apply forPages_returns (fun k s => s = bootLowStage k) (n := 0x324)
    · rintro k hk _ rfl
      rw [page_succ]
      refine ⟨?_, _, boot_mapSelf hk, rfl⟩
      rw [BitVec.lt_def, BitVec.toNat_ofNat, Nat.mod_eq_of_lt (by omega)]
      by_cases hzero : k = 0
      · rw [hzero]
        decide
      · rw [bootLowStage, if_neg hzero]
        change _ < 0x325000
        omega
    · rintro _ rfl
      decide
    · rw [loopBound]
      decide
    · rfl
  exact hrun

theorem boot_refCntLength : refCntLength (framesBetween 0x2E3 0x336) = some 0x53 := by
  rw [refCntLength_of_ends (by rw [framesBetween_cons (by decide)]; rfl)
    (getLast_framesBetween (by decide))]
  decide

theorem boot_mapStatic :
    mapStatic (bootHeapStage 0) = (.ok (), { bootLowStage 0x324 with kernelLowNtable := 1 }) := by
  have hcount : refCntLength (bootHeapStage 64).outline.frames = some 0x53 := boot_refCntLength
  have hzero : ({ bootHeapStage 64 with staticEnd := 0x32314C } : State) = bootLowStage 0 := by
    rw [bootLowStage, bootPage_zero]
    rfl
  rw [mapStatic, Exec.bind_ok boot_heapTables,
    Exec.bind_ok (onOutline_ok (newRefCnt_of_some hcount))]
  rw [Exec.bind_ok (hzero ▸ boot_lowTables)]
  rfl

theorem boot_finish :
    finish { bootLowStage 0x324 with kernelLowNtable := 1 } = (.ok (), bootState) := by
  rfl

theorem bootState_mapped : Mapped bootState := by
  have hcounts : refCntEnd (bootHeapStage 0).outline 0x53 = 0x32314C := by decide
  have hlimit : staticLimit (bootHeapStage 0) 0x53 = 0x325000 := by
    rw [staticLimit, hcounts]
    decide
  refine mapped_of_init boot_loadMap boot_refCntLength ⟨by decide, by decide, ?_, ?_⟩ ?_
    boot_mapStatic boot_finish
  · rw [hcounts]
    decide
  · rw [hlimit]
    decide
  · rw [hcounts]
    decide

end Jkos.Boot.Identity

namespace Jkos.Page

open Exec Kheap Boot.Identity

/-- The trees before `kheap_init`, with nodes cleared by the loader. -/
def bootHeap : Heap :=
  bootStatics.newHeap (fun _ => ⟨0, 0, fun _ => null, ⟨⟨0, 0⟩⟩⟩)
    (fun _ => ⟨0, 0, fun _ => null, ⟨⟨0, 0⟩⟩⟩)

/-- The kernel that `Page::init` leaves on that machine, with cleared memory. -/
def bootKernel : Kernel where
  frames := [0x326, 0x327, 0x328, 0x329, 0x32A, 0x32B, 0x32C, 0x32D,
    0x32E, 0x32F, 0x330, 0x331, 0x332, 0x333, 0x334, 0x335]
  frameRefCnt _ := 0
  page := bootPage 0x324
  tables := 0x324000 :: (List.range 64).map fun k => BitVec.ofNat 32 (0x2E3000 + 4096 * k)
  dir d := if d = 0x2E0000 then linked bootTable 0x2E1000 else Directory.zero
  dirs := [0x2E0000]
  phys _ _ := 0
  currentPageDir := 0x2E0000
  emptyPage0Addr := null
  emptyPage1Addr := null
  emptyPage0 := ⟨null, 0⟩
  emptyPage1 := ⟨null, 0⟩
  kernelLowNtable := 1
  kernelCodeEnd := 0x180000
  initFinished := true
  heap := (initTrees bootHeap).2
  kheapFinishInit := true
  kheapStaticEnd := 0x325000
  userMemLow := 0x400000
  userMemHigh := 0xEFBFFFFF

def bootLayout : Layout := bootState.layout

theorem bootKernel_eq : bootState.handover
    { bootKernel with dir := fun _ => Directory.zero } = bootKernel := by
  have htables : ((List.range 1024).map fun i => bootTable (BitVec.ofNat 10 i)).filter (· ≠ null) =
      bootKernel.tables := by
    decide +kernel
  rw [State.handover]
  simp only [bootState]
  exact congrArg (fun tables => { bootKernel with tables := tables }) htables

theorem bootKernel_trees : initTrees bootHeap = (.ok (), bootKernel.heap) :=
  eq_ok_of_toOption (by decide)

theorem bootKernel_booted : Booted bootLayout bootKernel := by
  have hframe : ∀ f ∈ bootState.frames, 0x326 ≤ f.toNat ∧ f.toNat < 0x336 := fun f hf =>
    (Boot.mem_framesBetween (by decide)).mp hf
  rw [← bootKernel_eq]
  refine booted_of_mapped bootState_mapped ⟨by decide, fun f hf => ?_, fun f hf => ?_, by decide,
    ⟨bootStatics, _, _, bootKernel_trees⟩, by decide⟩
  · rw [BitVec.lt_def]
    exact Nat.lt_of_lt_of_le (by decide) (hframe f hf).1
  · exact Nat.lt_trans (hframe f hf).2 (by decide)

end Jkos.Page
