import Jkos.Page.Ram

/-!
# A lost table

`free_interval` takes any page of the heap. When it takes the page of a table, the frame goes
to whoever asks next, and what the table said is gone: the frames of its pages are neither
free nor anybody's. If the page then gets another frame, the code and the processor no longer
look at the same table, and a fault that the code serves is repeated for ever.
-/

namespace Jkos.Page

open Exec Kheap

variable {p q : Slot} {t : Word}

/-- The table of the user pages. -/
abbrev lostTable : Word := 0xEFC04000

/-- The entry of its page. -/
abbrev lostSlot : Slot := ⟨0x2E3000, 4⟩

/-- The entry of a page of the heap, without a frame. -/
abbrev takerSlot : Slot := ⟨0x2E3000, 0x10⟩

/-- The other tables. -/
def keptTables : Set Word := {t | t ∈ bootUser.tables ∧ t ≠ lostTable}

/-! ## The machine before -/

/-- The tables lie in different frames, the directory names these frames, and none of the other
tables is reached through the lost one or through the entries that change. -/
theorem bootUser_tables : (bootUser.tables.map (tableFrame bootUser)).Nodup ∧
    (bootUser.tables.all fun t => decide (
      ((image bootUser).walk t false false).toOption = some (tableFrame bootUser t) ∧
      ((image bootUser).walk t true false).toOption = some (tableFrame bootUser t))) = true ∧
    ((List.range 1024).all fun k =>
      let i := BitVec.ofNat 10 k
      decide (((bootUser.dir 0x2E0000).entries i).present =
          decide ((bootUser.dir 0x2E0000).tables i ≠ null) ∧
        ((bootUser.dir 0x2E0000).tables i ≠ null → ((bootUser.dir 0x2E0000).entries i).addr =
          tableFrame bootUser ((bootUser.dir 0x2E0000).tables i)))) = true ∧
    (bootUser.tables.all fun t => decide (t = lostTable ∨ pageOf t = t ∧
      (bootUser.dir 0x2E0000).tables (tbIdx t) ≠ lostTable ∧
      (bootUser.dir 0x2E0000).tables (tbIdx t) ≠ null ∧
      ((bootUser.dir 0x2E0000).entries (tbIdx t)).addr ≠ 0x328 ∧
      ¬ (((bootUser.dir 0x2E0000).entries (tbIdx t)).addr = tableFrame bootUser 0x2E3000 ∧
        (tbOffset t = 4 ∨ tbOffset t = 0x10 ∨ tbOffset t = 1)))) = true := by
  decide +kernel

/-- The directory, the scratch page, and the pages of the run. -/
theorem bootUser_facts :
    (bootUser.currentPageDir = 0x2E0000 ∧ bootUser.dirs = [0x2E0000] ∧ null ∉ bootUser.tables ∧
      0x2E3000 ∈ bootUser.tables ∧ lostTable ∈ bootUser.tables ∧
      tableFrame bootUser lostTable = 0x328) ∧
    (bootUser.emptyPage0 = ⟨0x2E3000, 1⟩ ∧ bootUser.emptyPage1 = ⟨0x2E3000, 2⟩ ∧
      bootUser.emptyPage0Addr = 0xEFC01000 ∧
      lookup bootUser 0x2E0000 0xEFC01000 = some ⟨0x2E3000, 1⟩ ∧
      (bootUser.page ⟨0x2E3000, 1⟩).present = true ∧ (bootUser.page ⟨0x2E3000, 1⟩).rw = true) ∧
    (OrdinaryPage bootUser lostTable ∧ lookup bootUser 0x2E0000 lostTable = some lostSlot ∧
      (bootUser.page lostSlot).present = true ∧ (bootUser.page lostSlot).addr = 0x328 ∧
      bootUser.frameRefCnt 0x328 = 1) ∧
    (OrdinaryPage bootUser 0xEFC10000 ∧
      lookup bootUser 0x2E0000 0xEFC10000 = some takerSlot ∧
      (bootUser.page takerSlot).addr = 0) ∧
    OrdinaryPage bootUser 0xEF800000 ∧
    lookup bootUser 0x2E0000 0xEF800000 = some ⟨lostTable, 0⟩ ∧
    (bootUser.page ⟨lostTable, 0⟩).addr = 0x329 ∧ bootUser.frameRefCnt 0x329 = 1 ∧
    0x329 ∉ bootUser.frames := by
  unfold OrdinaryPage IdentityPage ScratchPage
  decide +kernel

theorem bootUser_current : bootUser.currentPageDir = 0x2E0000 := bootUser_facts.1.1

theorem bootUser_dirs : bootUser.dirs = [0x2E0000] := bootUser_facts.1.2.1

theorem lostTable_mem : lostTable ∈ bootUser.tables := bootUser_facts.1.2.2.2.2.1

theorem lostTable_frame : tableFrame bootUser lostTable = 0x328 := bootUser_facts.1.2.2.2.2.2

theorem bootUser_scratch : bootUser.emptyPage0 = ⟨0x2E3000, 1⟩ := bootUser_facts.2.1.1

theorem bootUser_imaged :
    Imaged {t | t ∈ bootUser.tables} (tableFrame bootUser) bootUser (image bootUser) := by
  refine image_imaged bootUser_tables.1 fun t ht write => ?_
  have hwalks := of_decide_eq_true (List.all_eq_true.mp bootUser_tables.2.1 t ht)
  have hok : ∀ {r : Except Word Frame} {f : Frame}, r.toOption = some f → r = .ok f := by
    intro r f h
    cases r with
    | ok f' => exact congrArg Except.ok (Option.some.inj h)
    | error e => cases h
  cases write with
  | false => exact hok hwalks.1
  | true => exact hok hwalks.2

theorem kept_facts (ht : t ∈ keptTables) : pageOf t = t ∧
    (bootUser.dir 0x2E0000).tables (tbIdx t) ≠ lostTable ∧
    (bootUser.dir 0x2E0000).tables (tbIdx t) ≠ null ∧
    ((bootUser.dir 0x2E0000).entries (tbIdx t)).addr ≠ 0x328 ∧
    ¬ (((bootUser.dir 0x2E0000).entries (tbIdx t)).addr = tableFrame bootUser 0x2E3000 ∧
      (tbOffset t = 4 ∨ tbOffset t = 0x10 ∨ tbOffset t = 1)) :=
  (of_decide_eq_true (List.all_eq_true.mp bootUser_tables.2.2.2 t ht.1)).resolve_left ht.2

theorem heapTable_kept : (0x2E3000 : Word) ∈ keptTables :=
  ⟨bootUser_facts.1.2.2.2.1, by decide⟩

/-- Entries of that table are not those of the pages of the other tables. -/
theorem kept_bare {i : BitVec 10} (hi : i = 4 ∨ i = 0x10 ∨ i = 1) :
    Bare keptTables (tableFrame bootUser) bootUser ⟨0x2E3000, i⟩ := by
  rintro t ht ⟨hframe, hidx⟩
  rw [bootUser_current] at hframe
  obtain ⟨-, -, -, -, hnot⟩ := kept_facts ht
  refine hnot ⟨hframe, ?_⟩
  rw [hidx]
  exact hi

theorem directory_entry (i : BitVec 10) :
    ((bootUser.dir 0x2E0000).entries i).present =
        decide ((bootUser.dir 0x2E0000).tables i ≠ null) ∧
      ((bootUser.dir 0x2E0000).tables i ≠ null → ((bootUser.dir 0x2E0000).entries i).addr =
        tableFrame bootUser ((bootUser.dir 0x2E0000).tables i)) := by
  have hall := of_decide_eq_true (List.all_eq_true.mp bootUser_tables.2.2.1 i.toNat
    (List.mem_range.mpr i.isLt))
  rw [BitVec.ofNat_toNat, BitVec.setWidth_eq] at hall
  exact hall

theorem bootUser_linked : ∃ g, Linked g bootUser := by
  have hrun : PageRuns bootStarted bootUser := .single ⟨_, bootUser_step⟩
  obtain ⟨F, hs⟩ := hrun.of_boot bootKernel_booted bootStarted_run
  exact ⟨_, hs.linked⟩

/-- A table of the directory exists. -/
theorem table_mem {i : BitVec 10} (hne : (bootUser.dir 0x2E0000).tables i ≠ null) :
    (bootUser.dir 0x2E0000).tables i ∈ bootUser.tables := by
  obtain ⟨g, hl⟩ := bootUser_linked
  have hidx : tbIdx (i.setWidth 32 <<< 22) = i := by
    rw [tbIdx]
    bv_omega
  have hlook : lookup bootUser bootUser.currentPageDir (i.setWidth 32 <<< 22) =
      some ⟨(bootUser.dir 0x2E0000).tables i, tbOffset (i.setWidth 32 <<< 22)⟩ := by
    rw [lookup, bootUser_current, hidx, if_neg hne]
  exact (hl.lookup_mem hl.current hlook).1

/-- The machine before starts with all tables in memory. -/
theorem bootUser_mirrors : Mirrors (tableFrame bootUser) bootUser (image bootUser) := by
  refine ⟨bootUser_imaged, fun t ht => ?_, fun i hi => ?_, fun t ht => ?_⟩
  · by_cases hlost : t = lostTable
    · rw [hlost]
      decide
    · exact (kept_facts ⟨ht, hlost⟩).1
  · rw [bootUser_current] at hi ⊢
    obtain ⟨hpresent, haddr⟩ := directory_entry i
    have hne : (bootUser.dir 0x2E0000).tables i ≠ null := by
      intro hnull
      rw [hnull] at hi
      exact bootUser_facts.1.2.2.1 hi
    exact ⟨hpresent.trans (decide_eq_true hne), haddr hne⟩
  · rw [bootUser_current]
    by_cases hlost : t = lostTable
    · have hlook := bootUser_facts.2.2.1.2.1
      rw [← bootUser_current] at hlook
      obtain ⟨g, hl⟩ := bootUser_linked
      obtain ⟨-, -, hne⟩ := hl.lookup_mem hl.current hlook
      rw [bootUser_current] at hne
      rw [hlost]
      exact table_mem hne
    · exact table_mem (kept_facts ⟨ht, hlost⟩).2.2.1

theorem kept_synced : Synced keptTables (tableFrame bootUser) bootUser := by
  have hsync := bootUser_mirrors.synced
  refine ⟨fun t ht => hsync.aligned t ht.1, fun i hi => hsync.entry i hi.1, fun t ht => ?_⟩
  obtain ⟨-, hlost, -⟩ := kept_facts ht
  rw [← bootUser_current] at hlost
  exact ⟨hsync.mapped t ht.1, hlost⟩

theorem kept_apart : Apart keptTables (tableFrame bootUser) bootUser 0x328 := by
  intro t ht
  refine ⟨fun hframe => ht.2 ?_, ?_⟩
  · rw [← lostTable_frame] at hframe
    exact bootUser_imaged.inj t ht.1 lostTable lostTable_mem hframe
  · rw [bootUser_current]
    exact (kept_facts ht).2.2.2.1

theorem kept_scratchable : Scratchable keptTables (tableFrame bootUser) bootUser := by
  obtain ⟨-, ⟨hscratch, -, hscratchAddr, hlook, hpresent, hrw⟩, -⟩ := bootUser_facts
  obtain ⟨hentry, haddr⟩ := directory_entry (tbIdx 0xEFC01000)
  have htable : (bootUser.dir 0x2E0000).tables (tbIdx 0xEFC01000) = 0x2E3000 := by
    rw [lookup] at hlook
    split at hlook
    · cases hlook
    · exact congrArg Slot.table (Option.some.inj hlook)
  have hne : (bootUser.dir 0x2E0000).tables (tbIdx 0xEFC01000) ≠ null := by
    rw [htable]
    decide
  refine ⟨?_, ?_, ?_, ?_, ?_⟩
  · rw [hscratch]
    exact heapTable_kept
  · rw [hscratch]
    exact kept_bare (.inr (.inr rfl))
  · rw [bootUser_current, hscratch, hscratchAddr, haddr hne, htable]
    exact ⟨hentry.trans (decide_eq_true hne), rfl⟩
  · rw [hscratch, hscratchAddr]
    decide
  · rw [hscratch]
    exact ⟨hpresent, hrw⟩

/-! ## The frame goes to another page -/

/-- The page of the table is freed. -/
@[irreducible] def ramFreed : Ram :=
  (Ram.freeInterval 0x2E0000 lostTable 0xEFC05000 (image bootUser)).2

/-- The other page gets the frame. -/
@[irreducible] def ramTaken : Ram := (Ram.alloc takerSlot false true ramFreed).2

/-- The page is cleared. -/
@[irreducible] def ramLost : Ram := (Ram.lazyAlloc takerSlot false true true ramTaken).2

/-- The entries after the first of these calls, ... -/
def freedKernel : Kernel :=
  ({ bootUser.setRef 0x328 0 with frames := 0x328 :: bootUser.frames } : Kernel).setEntry lostSlot
    ({ · with addr := 0, present := false, allocable := false })

/-- ... after the second, ... -/
def takenKernel : Kernel := taken freedKernel takerSlot 0x328 bootUser.frames false true

/-- ... and after the third. -/
def lostKernel : Kernel :=
  (scratched (takenKernel.setEntry takerSlot ({ · with rw := true, user := false })) 0x328).setFrame
    0x328 (fillBytes 0)

theorem ramFreed_apply (m : Ram) (hlook : lookup m.kernel 0x2E0000 lostTable = some p)
    {e : TableEntry} (he : Ram.entry p m = (.ok e, m)) (hpresent : e.present = true) :
    Ram.freeInterval 0x2E0000 lostTable 0xEFC05000 m = Ram.free p m := by
  have hfuel : loopBound = (loopBound - 2) + 1 + 1 := by decide
  rw [Ram.freeInterval, interval, if_pos (by decide), hfuel, forPages, if_pos (by decide)]
  simp only [forPages, if_neg (show ¬ lostTable + 0x1000 < (0xEFC05000 : Word) by decide)]
  refine (congrFun (bind_pure_self _) m).trans ?_
  rw [bind_apply, read_apply, hlook]
  dsimp only
  rw [bind_ok he, if_pos hpresent]

/-- The page of the table loses its frame. -/
theorem ramFreed_run :
    Ram.freeInterval 0x2E0000 lostTable 0xEFC05000 (image bootUser) = (.ok (), ramFreed) ∧
    Imaged keptTables (tableFrame bootUser) freedKernel ramFreed := by
  obtain ⟨-, -, ⟨-, hlook, hpresent, haddr, hone⟩, -⟩ := bootUser_facts
  have h : Imaged keptTables (tableFrame bootUser) bootUser (image bootUser) :=
    bootUser_imaged.subset fun t ht => ht.1
  have hheap : lostSlot.table ∈ keptTables := heapTable_kept
  obtain ⟨m, hrun, hm⟩ := h.free hheap (kept_bare (.inl rfl))
  rw [← ramFreed_apply _ hlook (h.entry hheap) hpresent] at hrun
  rw [free_of_one (by rw [haddr]; decide) (by rw [haddr]; exact hone), haddr] at hm
  obtain rfl : ramFreed = m := by
    rw [ramFreed, hrun]
  exact ⟨hrun, hm⟩

/-- The other page takes it. -/
theorem ramTaken_run : Ram.alloc takerSlot false true ramFreed = (.ok (), ramTaken) ∧
    Imaged keptTables (tableFrame bootUser) takenKernel ramTaken := by
  have hzero : (freedKernel.page takerSlot).addr = 0 := by
    rw [freedKernel, Kernel.page_setEntry_of_ne _ _ (by decide)]
    exact bootUser_facts.2.2.2.1.2.2
  obtain ⟨m, hrun, hm⟩ := ramFreed_run.2.alloc (p := takerSlot) heapTable_kept
    ((kept_bare (.inr (.inl rfl))).of_rest rfl) false true
  have halloc : Page.alloc takerSlot false true freedKernel = (.ok (), takenKernel) :=
    alloc_of_cons hzero rfl false true
  rw [halloc] at hrun hm
  obtain rfl : ramTaken = m := by
    rw [ramTaken, hrun]
  exact ⟨hrun, hm⟩

theorem takenKernel_taker : (takenKernel.page takerSlot).addr = 0x328 := by
  rw [takenKernel, taken, Kernel.page_setEntry_self]

theorem taken_scratchable : Scratchable keptTables (tableFrame bootUser) takenKernel := by
  obtain ⟨hmem, hbare, hentry, hidx, hopened⟩ := kept_scratchable
  have hscratch := bootUser_scratch
  refine ⟨hmem, hbare, hentry, hidx, ?_⟩
  have hpage : takenKernel.page takenKernel.emptyPage0 = bootUser.page bootUser.emptyPage0 := by
    change takenKernel.page bootUser.emptyPage0 = _
    rw [hscratch, takenKernel, taken, Kernel.page_setEntry_of_ne _ _ (by decide)]
    change freedKernel.page ⟨0x2E3000, 1⟩ = bootUser.page ⟨0x2E3000, 1⟩
    rw [freedKernel, Kernel.page_setEntry_of_ne _ _ (by decide)]
    rfl
  rw [hpage]
  exact hopened

/-- The page is cleared, and the table with it. -/
theorem ramLost_run : Ram.lazyAlloc takerSlot false true true ramTaken = (.ok (), ramLost) ∧
    Imaged keptTables (tableFrame bootUser) lostKernel ramLost ∧
    ramLost.word 0x328 = fun _ => 0 := by
  have hheld : (takenKernel.page takerSlot).addr ≠ 0 := by
    rw [takenKernel_taker]
    decide
  have hne : takerSlot ≠ takenKernel.emptyPage0 := by
    change takerSlot ≠ bootUser.emptyPage0
    rw [bootUser_scratch]
    decide
  have hapart : Apart keptTables (tableFrame bootUser) takenKernel
      (takenKernel.page takerSlot).addr := by
    rw [takenKernel_taker]
    exact kept_apart
  obtain ⟨m, hrun, hm, hword⟩ := ramTaken_run.2.lazyAlloc_of_held (p := takerSlot) heapTable_kept
    ((kept_bare (.inr (.inl rfl))).of_rest rfl) taken_scratchable hne hheld hapart false true
  have hlost : (Page.lazyAlloc takerSlot false true true takenKernel).2 = lostKernel := by
    rw [lazyAlloc_of_held hheld, fillUint32_apply, Kernel.page_setEntry_self, lostKernel]
    simp only [takenKernel_taker]
  rw [hlost] at hm
  obtain rfl : ramLost = m := by
    rw [ramLost, hrun]
  rw [takenKernel_taker] at hword
  exact ⟨hrun, hm, hword⟩

theorem lostPage_ordinary {i : Word} (hle : lostTable ≤ i) (hlt : i < 0xEFC05000) :
    OrdinaryPage bootUser i := by
  rw [← ordinaryPage_pageOf, pageOf_of_mem (by decide) hle hlt]
  exact bootUser_facts.2.2.1.1

/-- The run, from the machine in which the user page has been allocated. -/
theorem ramLost_runs : RamRuns (image bootUser) ramLost := by
  obtain ⟨-, -, -, ⟨hordinary, htaker, -⟩, -⟩ := bootUser_facts
  obtain ⟨hd₁, haddr₁, hlook₁⟩ := ordinary_of_rest ramFreed_run.2.rest bootUser_mem hordinary htaker
  obtain ⟨hd₂, haddr₂, hlook₂⟩ := ordinary_of_rest ramTaken_run.2.rest bootUser_mem hordinary htaker
  have hfree : RamStep (image bootUser) ramFreed :=
    .freeInterval bootUser_mem (fun _ hle hlt => lostPage_ordinary hle hlt) ramFreed_run.1
  have htake : RamStep ramFreed ramTaken := .alloc hd₁ haddr₁ hlook₁ ramTaken_run.1
  have hclear : RamStep ramTaken ramLost := .lazyAlloc hd₂ haddr₂ hlook₂ ramLost_run.1
  exact ((Relation.ReflTransGen.single hfree).tail htake).tail hclear

/-! ## The frame of the user page is lost -/

/-- The entries that are not concerned are as before. -/
theorem lostKernel_page (hlost : q ≠ lostSlot) (htaker : q ≠ takerSlot)
    (hscratch : q ≠ ⟨0x2E3000, 1⟩) : lostKernel.page q = bootUser.page q := by
  have hempty : (takenKernel.setEntry takerSlot ({ · with rw := true, user := false })).emptyPage0 =
      ⟨0x2E3000, 1⟩ := bootUser_scratch
  change (scratched _ _).page q = _
  rw [scratched, hempty, Kernel.page_setEntry_of_ne _ _ hscratch,
    Kernel.page_setEntry_of_ne _ _ htaker, takenKernel, taken,
    Kernel.page_setEntry_of_ne _ _ htaker]
  change freedKernel.page q = _
  rw [freedKernel, Kernel.page_setEntry_of_ne _ _ hlost]
  rfl

theorem lostKernel_facts : (lostKernel.page lostSlot).present = false ∧
    (lostKernel.page lostSlot).addr = 0 ∧ (lostKernel.page takerSlot).addr = 0x328 := by
  have hempty : (takenKernel.setEntry takerSlot ({ · with rw := true, user := false })).emptyPage0 =
      ⟨0x2E3000, 1⟩ := bootUser_scratch
  have hpage : ∀ q : Slot, q ≠ ⟨0x2E3000, 1⟩ → lostKernel.page q =
      (takenKernel.setEntry takerSlot ({ · with rw := true, user := false })).page q := by
    intro q hq
    change (scratched _ _).page q = _
    rw [scratched, hempty, Kernel.page_setEntry_of_ne _ _ hq]
  have hlost : lostKernel.page lostSlot = freedKernel.page lostSlot := by
    rw [hpage _ (by decide), Kernel.page_setEntry_of_ne _ _ (by decide), takenKernel, taken,
      Kernel.page_setEntry_of_ne _ _ (by decide)]
    rfl
  rw [hlost, freedKernel, Kernel.page_setEntry_self, hpage _ (by decide), Kernel.page_setEntry_self]
  exact ⟨rfl, rfl, takenKernel_taker⟩

/-- Only the entry in the lost table held the frame. -/
theorem holders_bootUser (hq : q ∈ holders bootUser 0x329) : q = ⟨lostTable, 0⟩ := by
  obtain ⟨-, ⟨hscratch0, hscratch1, -⟩, -, -, -, -, hframe, hone, -⟩ := bootUser_facts
  have hrun : PageRuns bootStarted bootUser := .single ⟨_, bootUser_step⟩
  obtain ⟨F, hs⟩ := hrun.of_boot bootKernel_booted bootStarted_run
  have hmanaged : (0x329 : Frame) ∈ bootLayout.managed :=
    bootKernel_booted.sound.frames.free _ (by decide)
  have hself : (⟨lostTable, 0⟩ : Slot) ∈ holders bootUser 0x329 := by
    refine ⟨⟨lostTable_mem, ?_, ?_⟩, hframe⟩
    · rw [hscratch0]
      decide
    · rw [hscratch1]
      decide
  have hcard := ((hs.sound.frames.accounted hmanaged).1 ⟨_, hself⟩).1
  rw [hone] at hcard
  obtain ⟨r, hr⟩ := Set.ncard_eq_one.mp hcard.symm
  rw [hr] at hq hself
  exact hq.trans hself.symm

theorem keptTables_lookup {i : Word} (hlook : lookup bootUser 0x2E0000 i = some p)
    (hp : p.table ∈ keptTables) (write user : Bool) :
    ramLost.walk i write user = walk lostKernel i write user := by
  have hsync : Synced keptTables (tableFrame bootUser) lostKernel :=
    ⟨kept_synced.aligned, kept_synced.entry, kept_synced.mapped⟩
  have hcur : lookup lostKernel lostKernel.currentPageDir i = some p := by
    change lookup bootUser bootUser.currentPageDir i = some p
    rw [bootUser_current, hlook]
  exact ramLost_run.2.1.walk_eq hsync hcur hp write user

/-- The page of the table is gone. -/
theorem ramLost_walk : ∀ f, ramLost.walk lostTable false false ≠ .ok f := by
  intro f hwalk
  have hlook := bootUser_facts.2.2.1.2.1
  have hlook' : lookup lostKernel lostKernel.currentPageDir lostTable = some lostSlot := by
    change lookup bootUser bootUser.currentPageDir lostTable = some lostSlot
    rw [bootUser_current, hlook]
  rw [keptTables_lookup hlook heapTable_kept, walk, hlook'] at hwalk
  simp only [lostKernel_facts.1, if_true] at hwalk
  cases hwalk

/-- No table that is left has an entry with the frame. -/
theorem ramLost_word (ht : t ∈ keptTables) (i : BitVec 10)
    (h0 : (⟨t, i⟩ : Slot) ≠ bootUser.emptyPage0) (h1 : (⟨t, i⟩ : Slot) ≠ bootUser.emptyPage1) :
    (TableEntry.decode (ramLost.word (tableFrame bootUser t) i)).addr ≠ 0x329 := by
  intro haddr
  rw [ramLost_run.2.1.word t ht i] at haddr
  by_cases hlost : (⟨t, i⟩ : Slot) = lostSlot
  · rw [hlost, lostKernel_facts.2.1] at haddr
    exact absurd haddr (by decide)
  by_cases htaker : (⟨t, i⟩ : Slot) = takerSlot
  · rw [htaker, lostKernel_facts.2.2] at haddr
    exact absurd haddr (by decide)
  have hscratch := h0
  rw [bootUser_scratch] at hscratch
  rw [lostKernel_page hlost htaker hscratch] at haddr
  have hholder := holders_bootUser ⟨⟨ht.1, h0, h1⟩, haddr⟩
  exact ht.2 (congrArg Slot.table hholder)

/-- Tables of the machine lie in the frames of the tables that are left, or in the one that has
been cleared. -/
theorem ramLost_table {f : Frame} (h : ramLost.HasTable f) :
    f = 0x328 ∨ ∃ t ∈ keptTables, f = tableFrame bootUser t := by
  have hrest := ramLost_run.2.1.rest
  have htables : ramLost.kernel.tables = bootUser.tables := (congrArg Kernel.tables hrest :)
  have hdirs : ramLost.kernel.dirs = bootUser.dirs := (congrArg Kernel.dirs hrest :)
  have hdir : ramLost.kernel.dir = bootUser.dir := (congrArg Kernel.dir hrest :)
  obtain ⟨t, ht, hwalk⟩ | ⟨d, hd, i, hpresent, rfl⟩ := h
  · rw [htables] at ht
    have hne : t ≠ lostTable := by
      rintro rfl
      exact ramLost_walk f hwalk
    have hkept : t ∈ keptTables := ⟨ht, hne⟩
    rw [ramLost_run.2.1.walk t hkept false] at hwalk
    exact .inr ⟨t, hkept, (Except.ok.inj hwalk).symm⟩
  · rw [hdirs, bootUser_dirs, List.mem_singleton] at hd
    subst hd
    rw [hdir] at hpresent ⊢
    obtain ⟨hiff, haddr⟩ := directory_entry i
    have hne := of_decide_eq_true (hiff.symm.trans hpresent)
    rw [haddr hne]
    by_cases hlost : (bootUser.dir 0x2E0000).tables i = lostTable
    · rw [hlost]
      exact .inl lostTable_frame
    · exact .inr ⟨_, ⟨table_mem hne, hlost⟩, rfl⟩

theorem ramLost_holders : ramLost.holders 0x329 = ∅ := by
  have hrest := ramLost_run.2.1.rest
  have h0 : ramLost.kernel.emptyPage0 = bootUser.emptyPage0 := (congrArg Kernel.emptyPage0 hrest :)
  have h1 : ramLost.kernel.emptyPage1 = bootUser.emptyPage1 := (congrArg Kernel.emptyPage1 hrest :)
  refine Set.eq_empty_iff_forall_notMem.mpr ?_
  rintro ⟨f, i⟩ ⟨htable, hscratch, haddr⟩
  obtain rfl | ⟨t, ht, rfl⟩ := ramLost_table htable
  · have hzero : (TableEntry.decode (ramLost.word 0x328 i)).addr = 0 := by
      rw [ramLost_run.2.2]
      exact (show (TableEntry.decode 0).addr = 0 by decide)
    exact absurd (hzero.symm.trans haddr) (by decide)
  · have hne : ∀ e ∈ [ramLost.kernel.emptyPage0, ramLost.kernel.emptyPage1],
        (⟨t, i⟩ : Slot) ≠ e := by
      rintro e he rfl
      exact hscratch _ he (ramLost_run.2.1.walk t ht false) rfl
    rw [h0, h1] at hne
    exact ramLost_word ht i (hne _ (by simp)) (hne _ (by simp)) haddr

/-- The frame of the user page is off the stack, and no entry has it. -/
theorem table_lost : PageRuns bootStarted bootUser ∧ RamRuns (image bootUser) ramLost ∧
    0x329 ∈ bootKernel.frames ∧ ¬ ramLost.Accounted 0x329 := by
  refine ⟨.single ⟨_, bootUser_step⟩, ramLost_runs, by decide, fun haccounted => ?_⟩
  have hframes : ramLost.kernel.frames = bootUser.frames := ramLost_run.2.1.frames
  have hcount := haccounted.2 ramLost_holders
  rw [hframes] at hcount
  have hmem : (0x329 : Frame) ∈ bootUser.frames := List.count_pos_iff.mp (by omega)
  obtain ⟨-, -, -, -, -, -, -, -, hfree⟩ := bootUser_facts
  exact hfree hmem

/-! ## The same fault for ever -/

/-- The page of the table gets another frame. -/
@[irreducible] def ramMoved : Ram := (Ram.alloc lostSlot false true ramLost).2

/-- The user page is opened in the table that the code finds now. -/
@[irreducible] def ramOpened : Ram := (Ram.lazyAlloc ⟨lostTable, 0⟩ true true false ramMoved).2

/-- The user page is touched. -/
@[irreducible] def ramStuck : Ram := (Ram.pageFault 0xEF800000 4 0xEF800000 ramOpened).2

/-- Both calls succeed, and so does the handler; but the processor gets as far as before. -/
theorem ramStuck_facts :
    ((Ram.alloc lostSlot false true ramLost).1.toOption = some () ∧
      0x2E0000 ∈ ramMoved.kernel.dirs ∧ OrdinaryPage ramMoved.kernel 0xEF800000 ∧
      lookup ramMoved.kernel 0x2E0000 0xEF800000 = some ⟨lostTable, 0⟩ ∧
      (Ram.lazyAlloc ⟨lostTable, 0⟩ true true false ramMoved).1.toOption = some ()) ∧
    (Ram.pageFault 0xEF800000 4 0xEF800000 ramOpened).1.toOption = some () ∧
    ramOpened.walk 0xEF800000 false (decide (ramOpened.kernel.kernelCodeEnd ≤ 0xEF800000)) =
      .error 4 ∧
    ramStuck.walk 0xEF800000 false (decide (ramStuck.kernel.kernelCodeEnd ≤ 0xEF800000)) =
      .error 4 ∧
    ramStuck.walk lostTable false false = .ok 0x32A ∧
    ramStuck.walk lostTable true false = .ok 0x32A ∧
    ramStuck.word 0x32A 0 = (⟨true, true, true, true, 0, 0x32B⟩ : TableEntry).encode ∧
    lookup ramStuck.kernel ramStuck.kernel.currentPageDir 0xEF800000 = some ⟨lostTable, 0⟩ ∧
    ¬ ScratchPage ramStuck.kernel 0xEF800000 := by
  unfold OrdinaryPage IdentityPage ScratchPage
  decide +kernel

theorem ramStuck_runs : RamRuns (image bootUser) ramStuck := by
  obtain ⟨-, -, ⟨hord, hlook, -⟩, -⟩ := bootUser_facts
  obtain ⟨⟨halloc, hd, haddr, hlook', hlazy⟩, hfault, hwalk, -⟩ := ramStuck_facts
  obtain ⟨hd₀, haddr₀, hlook₀⟩ := ordinary_of_rest ramLost_run.2.1.rest bootUser_mem hord hlook
  have hmoved : Ram.alloc lostSlot false true ramLost = (.ok (), ramMoved) := by
    rw [ramMoved]
    exact eq_ok_of_toOption halloc
  have hopened : Ram.lazyAlloc ⟨lostTable, 0⟩ true true false ramMoved = (.ok (), ramOpened) := by
    rw [ramOpened]
    exact eq_ok_of_toOption hlazy
  have hmove : RamStep ramLost ramMoved := .alloc hd₀ haddr₀ hlook₀ hmoved
  have hopen : RamStep ramMoved ramOpened := .lazyAlloc hd haddr hlook' hopened
  have hstuck : RamStep ramOpened ramStuck := by
    refine .fault hwalk ?_
    rw [ramStuck]
    exact eq_ok_of_toOption hfault
  exact ((ramLost_runs.tail hmove).tail hopen).tail hstuck

/-- The access never gets through, and the kernel never panics. -/
theorem fault_repeats : PageRuns bootStarted bootUser ∧ RamRuns (image bootUser) ramStuck ∧
    ¬ ScratchPage ramStuck.kernel 0xEF800000 ∧
    ∀ n, ¬ Ram.Settles 0xEF800000 false 0xEF800000 n ramStuck := by
  obtain ⟨-, -, -, hwalk, hread, hwrite, hword, hlook, hscratch⟩ := ramStuck_facts
  refine ⟨.single ⟨_, bootUser_step⟩, ramStuck_runs, hscratch, Ram.Settles.not_of_fixed hwalk ?_⟩
  refine Ram.pageFault_of_held hlook hread hwrite hword ?_ (by decide) (by decide) rfl
  rintro (hclosed | ⟨hkernel, -⟩)
  · exact absurd hclosed (by decide)
  · exact absurd hkernel (by decide)

end Jkos.Page
