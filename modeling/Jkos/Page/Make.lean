import Jkos.Page.Grow

/-!
# Making page tables

`get_page` makes a table where there is none: it takes a block of the heap, clears it and
links it from the directory, with the frame that the heap maps it to. Since the tables of
the heap exist before, this needs no other table.
-/

namespace Jkos

namespace Kernel

open Page

variable (s : Kernel) (d : Word) (m : Directory → Directory)

@[simp] theorem dir_setDir_self : (s.setDir d m).dir d = m (s.dir d) := if_pos rfl

variable {d} in
theorem dir_setDir_of_ne {d' : Word} (h : d' ≠ d) : (s.setDir d m).dir d' = s.dir d' := if_neg h

@[simp] theorem dirs_setDir : (s.setDir d m).dirs = s.dirs := rfl

end Kernel

namespace Page

open Exec Kheap

variable {g : Layout} {c : Prop} {K : Set Slot} {s s' s'' : Kernel} {p q : Slot}
  {F F' F'' : Multiset Block} {D : List Word} {d d' t addr : Word} {i j : BitVec 10}

/-! ## The scratch pages -/

/-- The scratch pages have been set up: their entries exist, are present and belong to the
kernel. -/
structure Scratched (s : Kernel) : Prop where
  entry : ∀ p, p = s.emptyPage0 ∨ p = s.emptyPage1 →
    p.table ∈ s.tables ∧ (s.page p).present = true ∧ (s.page p).rw = true ∧
      (s.page p).user = false
  ne : s.emptyPage0 ≠ s.emptyPage1

/-- A state with the same scratch pages, whose entries may have other frames. -/
theorem Scratched.congr (h : Scratched s) (h0 : s'.emptyPage0 = s.emptyPage0)
    (h1 : s'.emptyPage1 = s.emptyPage1) (htables : s.tables ⊆ s'.tables)
    (hpage : ∀ p, p = s.emptyPage0 ∨ p = s.emptyPage1 →
      ∃ f, s'.page p = { s.page p with addr := f }) : Scratched s' := by
  refine ⟨fun p hp => ?_, by rw [h0, h1]; exact h.ne⟩
  rw [h0, h1] at hp
  obtain ⟨ht, hflags⟩ := h.entry p hp
  obtain ⟨f, hf⟩ := hpage p hp
  rw [hf]
  exact ⟨htables ht, hflags⟩

/-- No step touches more of a scratch entry than its frame. -/
theorem Step.scratched (h : Step g c K s s') (hs : Scratched s) : Scratched s' := by
  have hedit : ∀ {q}, Editable g s q → ∀ p, p = s.emptyPage0 ∨ p = s.emptyPage1 → p ≠ q := by
    rintro q hq p (rfl | rfl) e
    · exact hq.counted.2.1 e.symm
    · exact hq.counted.2.2 e.symm
  have hset : ∀ {s₁ : Kernel} {q : Slot} {m : TableEntry → TableEntry}, Editable g s q →
      s₁.page = s.page → ∀ p, p = s.emptyPage0 ∨ p = s.emptyPage1 →
      ∃ f, (s₁.setEntry q m).page p = { s.page p with addr := f } := by
    intro s₁ q m hq hpage p hp
    refine ⟨(s.page p).addr, ?_⟩
    rw [Kernel.page_setEntry_of_ne _ _ (hedit hq p hp), hpage]
  cases h with
  | other frames ref page tables phys empty0 empty1 =>
      exact hs.congr empty0 empty1 (tables ▸ fun _ h => h) fun p _ => ⟨_, by rw [page]⟩
  | scratch q f hq =>
      refine hs.congr rfl rfl (fun _ h => h) fun p _ => ?_
      rcases eq_or_ne p q with rfl | hne
      · exact ⟨f, Kernel.page_setEntry_self _ _ _⟩
      · exact ⟨_, Kernel.page_setEntry_of_ne _ _ hne⟩
  | flags q m inside hq addr shape sole =>
      exact hs.congr rfl rfl (fun _ h => h) (hset hq rfl)
  | write q bytes inside hq held sole =>
      exact hs.congr rfl rfl (fun _ h => h) fun p _ => ⟨_, rfl⟩
  | take q f rest m inside hq top zero addr present allocable =>
      exact hs.congr rfl rfl (fun _ h => h) (hset hq rfl)
  | replace q f rest m inside hq top held many addr present allocable =>
      exact hs.congr rfl rfl (fun _ h => h) (hset hq rfl)
  | free q inside hq =>
      by_cases hzero : (s.page q).addr = 0
      · rw [free_of_zero hzero]
        exact hs
      · by_cases hone : s.frameRefCnt (s.page q).addr = 1
        · rw [free_of_one hzero hone]
          exact hs.congr rfl rfl (fun _ h => h) (hset hq rfl)
        · rw [free_of_many hzero hone]
          exact hs.congr rfl rfl (fun _ h => h) (hset hq rfl)
  | newTable t inside fresh aligned =>
      refine hs.congr rfl rfl (List.subset_cons_self t _) fun p hp => ?_
      have hne : p.table ≠ t := fun e => fresh (e ▸ (hs.entry p hp).1)
      exact ⟨_, if_neg hne⟩
  | share dest src i inside hdest hsrc destUser srcUser zero held =>
      rw [cloneEntry_of_held held]
      refine hs.congr rfl rfl (fun _ h => h) fun p hp => ⟨(s.page p).addr, ?_⟩
      rw [Kernel.page_setRef, Kernel.page_setEntry_of_ne _ _ (hedit hdest p hp),
        Kernel.page_setEntry_of_ne _ _ (hedit hsrc p hp)]

theorem Steps.scratched (h : Steps g c K s s') (hs : Scratched s) : Scratched s' := by
  induction h with
  | refl => exact hs
  | tail _ hstep ih => exact hstep.scratched ih

/-- A state in which the memory subsystem works and `Page::init` has returned. -/
structure Running (g : Layout) (c : Prop) (F : Multiset Block) (s : Kernel) : Prop
    extends Valid g c F s where
  scratched : Scratched s

theorem Grown.running (h : Grown g c F F' s s') (hs : Running g c F s) : Running g c F' s' :=
  ⟨h.valid, h.steps.scratched hs.scratched⟩

/-! ## Changes of directories -/

/-- The directory with another table at an index. -/
def Directory.setTable (x : Directory) (i : BitVec 10) (t : Word) : Directory :=
  { x with tables := fun j => if j = i then t else x.tables j }

/-- The directory with another entry at an index. -/
def Directory.setEntry (x : Directory) (i : BitVec 10) (e : DirectoryEntry) : Directory :=
  { x with entries := fun j => if j = i then e else x.entries j }

namespace OwnTables

theorem congr (h : OwnTables g s D) (htables : s.tables ⊆ s'.tables)
    (hdir : ∀ d ∈ D, ∀ i, ¬ g.Shared i → (s'.dir d).tables i = (s.dir d).tables i) :
    OwnTables g s' D := by
  refine ⟨fun d hd i hi hne => ?_, fun d hd d' hd' i j hi hj hne he => ?_⟩
  · rw [hdir d hd i hi] at hne ⊢
    exact (h.own d hd i hi hne).imp_left (htables ·)
  · rw [hdir d hd i hi] at hne he
    rw [hdir d' hd' j hj] at he
    exact h.unique d hd d' hd' i j hi hj hne he

/-- Linking a table that no directory has. -/
theorem setTable (h : OwnTables g s D) (ht : t ∈ s.tables) (hk : t ∉ g.kernel)
    (hnew : ∀ d ∈ D, ∀ j, ¬ g.Shared j → (s.dir d).tables j ≠ t) :
    OwnTables g (s.setDir d (·.setTable i t)) D := by
  have hcase : ∀ d' j, (d' = d ∧ j = i ∧ ((s.setDir d (·.setTable i t)).dir d').tables j = t) ∨
      (¬ (d' = d ∧ j = i) ∧
        ((s.setDir d (·.setTable i t)).dir d').tables j = (s.dir d').tables j) := by
    intro d' j
    by_cases hd : d' = d
    · subst hd
      rw [Kernel.dir_setDir_self]
      by_cases hj : j = i
      · exact .inl ⟨rfl, hj, if_pos hj⟩
      · exact .inr ⟨fun e => hj e.2, if_neg hj⟩
    · rw [Kernel.dir_setDir_of_ne _ _ hd]
      exact .inr ⟨fun e => hd e.1, rfl⟩
  refine ⟨fun d₁ hd₁ i₁ hi₁ hne => ?_, fun d₁ hd₁ d₂ hd₂ i₁ i₂ hi₁ hi₂ hne he => ?_⟩
  · obtain ⟨-, -, e⟩ | ⟨-, e⟩ := hcase d₁ i₁
    · rw [e]
      exact ⟨ht, hk⟩
    · rw [e] at hne ⊢
      exact h.own d₁ hd₁ i₁ hi₁ hne
  · obtain ⟨e₁, e₁', e⟩ | ⟨-, e⟩ := hcase d₁ i₁
    · obtain ⟨e₂, e₂', -⟩ | ⟨-, e'⟩ := hcase d₂ i₂
      · exact ⟨e₁.trans e₂.symm, e₁'.trans e₂'.symm⟩
      · rw [e, e'] at he
        exact absurd he.symm (hnew d₂ hd₂ i₂ hi₂)
    · obtain ⟨-, -, e'⟩ | ⟨-, e'⟩ := hcase d₂ i₂
      · rw [e, e'] at he
        exact absurd he (hnew d₁ hd₁ i₁ hi₁)
      · rw [e] at hne he
        rw [e'] at he
        exact h.unique d₁ hd₁ d₂ hd₂ i₁ i₂ hi₁ hi₂ hne he

/-- A table outside the list of tables is linked nowhere. -/
theorem ne_of_notMem (h : OwnTables g s D) (ht : t ∉ s.tables) (hnull : t ≠ null) (hd : d ∈ D)
    (hi : ¬ g.Shared i) : (s.dir d).tables i ≠ t := by
  intro e
  exact ht (e ▸ (h.own d hd i hi (e ▸ hnull)).1)

end OwnTables

theorem Linked.setDir (h : Linked g s) {m : Directory → Directory}
    (hshared : d ∈ s.dirs → ∀ i, g.Shared i → (m (s.dir d)).tables i = (s.dir d).tables i)
    (howned : OwnTables g (s.setDir d m) s.dirs) : Linked g (s.setDir d m) := by
  refine ⟨h.finished, h.heapReady, h.code, h.low, h.lowLe, h.current, h.kernel, h.inj,
    fun d' hd' i hi => ?_, howned, h.identity, h.scratch0, h.scratch1⟩
  rcases eq_or_ne d' d with rfl | hne
  · rw [Kernel.dir_setDir_self, hshared hd' i hi]
    exact h.shared d' hd' i hi
  · rw [Kernel.dir_setDir_of_ne _ _ hne]
    exact h.shared d' hd' i hi

/-- Directories whose tables stay as they are. -/
theorem tables_setDir {m : Directory → Directory} (hm : ∀ x, (m x).tables = x.tables) (d' : Word) :
    ((s.setDir d m).dir d').tables = (s.dir d').tables := by
  rcases eq_or_ne d' d with rfl | hne
  · rw [Kernel.dir_setDir_self, hm]
  · rw [Kernel.dir_setDir_of_ne _ _ hne]

theorem Linked.setDir_of_tables (h : Linked g s) {m : Directory → Directory}
    (hm : ∀ x, (m x).tables = x.tables) : Linked g (s.setDir d m) := by
  refine h.setDir (fun _ i _ => by rw [hm]) (h.owned.congr (fun _ h => h) fun d' _ i _ => ?_)
  rw [tables_setDir hm]

/-- A directory that is not in existence yet may become anything. -/
theorem Linked.setDir_of_notMem (h : Linked g s) (hd : d ∉ s.dirs) (m : Directory → Directory) :
    Linked g (s.setDir d m) := by
  refine h.setDir (fun hmem => absurd hmem hd) (h.owned.congr (fun _ h => h) fun d' hd' i _ => ?_)
  rw [Kernel.dir_setDir_of_ne _ _ fun e : d' = d => hd (e ▸ hd')]

theorem Linked.newTable (h : Linked g s) (hscr : Scratched s) :
    Linked g (newTable t s).2 := by
  have hmem : ∀ {t'}, t' ∈ s.tables → t' ∈ (Page.newTable t s).2.tables :=
    fun ht' => List.mem_cons_of_mem t ht'
  refine ⟨h.finished, h.heapReady, h.code, h.low, h.lowLe, h.current,
    fun i hi => (h.kernel i hi).imp_left hmem, h.inj, h.shared,
    h.owned.congr (fun _ ht' => hmem ht') fun _ _ _ _ => rfl, h.identity, fun _ => ?_, fun _ => ?_⟩
  · exact h.scratch0 (hscr.entry _ (.inl rfl)).1
  · exact h.scratch1 (hscr.entry _ (.inr rfl)).1

/-- The entries of the other tables are ordinary ones. -/
theorem Linked.editable_user (h : Linked g s) (ht : t ∈ s.tables) (hk : t ∉ g.kernel) :
    Editable g s ⟨t, i⟩ := by
  have hscr : ∀ {q : Slot} {b : Word}, ScratchSlot g s q b → (⟨t, i⟩ : Slot) ≠ q := by
    rintro q b hq rfl
    obtain ⟨hslot, hb, -⟩ := hq ht
    exact hk ⟨tbIdx b, shared_of_heap hb, (congrArg Slot.table hslot).symm⟩
  refine ⟨⟨ht, hscr h.scratch0, hscr h.scratch1⟩, fun hid => hk ?_⟩
  obtain ⟨a, -, hlow, hslot⟩ := h.identity _ hid
  exact ⟨tbIdx a, .inl hlow, (congrArg Slot.table hslot).symm⟩

theorem Valid.setDir (h : Valid g c F s) {m : Directory → Directory}
    (hl : Linked g (s.setDir d m)) : Valid g c F (s.setDir d m) := by
  have hstep : Step g c ∅ s (s.setDir d m) := .other rfl rfl rfl rfl rfl rfl rfl
  exact ⟨hstep.sound h.sound, hl,
    ⟨⟨h.heap.tables, h.heap.dirs, h.heap.scratch⟩, h.heap.frees, h.heap.proper, h.heap.once⟩⟩

theorem Grown.setDir (h : Grown g c F F' s s') {m : Directory → Directory}
    (hl : Linked g (s'.setDir d m)) : Grown g c F F' s (s'.setDir d m) :=
  ⟨h.valid.setDir hl, h.env.trans ⟨rfl, rfl, rfl, rfl, rfl, rfl, rfl, rfl⟩, h.tables, h.newTables,
    h.newDirs, h.steps.tail (.other rfl rfl rfl rfl rfl rfl rfl), h.took, h.separate, h.opened,
    h.fixed, h.cells⟩

/-- A table comes into existence in memory that was free. -/
theorem Grown.newTable (h : Grown g c F F' s s') (hscr : Scratched s') (hfresh : t ∉ s'.tables)
    (hdvd : 4096 ∣ t.toNat) (hpos : 0 < depthOf F t.toNat) (hzero : depthOf F' t.toNat = 0) :
    Grown g c F F' s (newTable t s').2 := by
  have hkernel : ∀ q : Slot, q.table ∈ g.kernel → (Page.newTable t s').2.page q = s'.page q := by
    rintro q ⟨i, hi, he⟩
    exact if_neg fun e : q.table = t => hfresh (e ▸ he ▸ (h.valid.linked.kernel i hi).1)
  have hstep : Step g c (g.fresh s) s' (Page.newTable t s').2 :=
    .newTable t (fun i => .inr fun hmem => hfresh (h.tables hmem)) hfresh hdvd
  refine ⟨⟨hstep.sound h.valid.sound, h.valid.linked.newTable hscr, ⟨⟨fun t' ht' => ?_,
      h.valid.heap.dirs, h.valid.heap.scratch⟩, h.valid.heap.frees, h.valid.heap.proper,
      h.valid.heap.once⟩⟩, h.env.trans ⟨rfl, rfl, rfl, rfl, rfl, rfl, rfl, rfl⟩,
    fun _ ht' => List.mem_cons_of_mem t (h.tables ht'), fun t' ht' => ?_, h.newDirs,
    h.steps.tail hstep, h.took, h.separate, fun q hk hq hopen => ?_, fun q hk hq hheld => ?_,
    fun hc b w hb hscratch hzero hcell => ?_⟩
  · obtain rfl | hmem := List.mem_cons.mp ht'
    · exact hzero
    · exact h.valid.heap.tables t' hmem
  · obtain rfl | hmem := List.mem_cons.mp ht'
    · exact .inr hpos
    · exact h.newTables t' hmem
  · rw [Opened, hkernel q hk]
    exact h.opened q hk hq hopen
  · rw [hkernel q hk]
    exact h.fixed q hk hq hheld
  · have hk := (h.valid.linked.lookup_heap h.valid.linked.current hb).2
    rw [HeapCell, hkernel _ hk]
    exact h.cells hc b w hb hscratch hzero hcell

/-! ## New objects -/

section Malloced

variable {size start : Word} {palign : Nat} {got : Block}

/-- The memory that `kmalloc` returns was free and no longer is. -/
theorem Malloced.payload_free (hm : Malloced g c F F' size palign start got s s')
    (h : Valid g c F s) {x : Nat} (h₁ : start.toNat ≤ x) (h₂ : x < start.toNat + size.toNat) :
    0 < depthOf F x ∧ depthOf F' x = 0 := by
  have hhead := hm.reserved.header
  have hpay := hm.reserved.payload
  have hdepth := hm.reserved.depth x
  rw [Cover.Span.at_of_mem (a := got.span) (by simp only [Block.span]; omega)] at hdepth
  have honce := h.heap.once x
  omega

theorem Malloced.openRange (hm : Malloced g c F F' size palign start got s s') :
    OpenRange g s' start size.toNat :=
  fun a h₁ h₂ => hm.opened a (by omega) h₂

theorem Malloced.heapAddr (hm : Malloced g c F F' size palign start got s s') :
    0xEFC00000 ≤ start.toNat ∧ start.toNat + size.toNat ≤ 0xFFC00000 := by
  have hlo := hm.reserved.kept.lo
  have hhi := hm.reserved.kept.hi
  have hhead := hm.reserved.header
  have hpay := hm.reserved.payload
  omega

end Malloced

/-- A page of the heap that the kernel has open, with a frame. -/
structure Resident (g : Layout) (s : Kernel) (a : Word) : Prop where
  heap : HeapAddr a
  scratch : ¬ ScratchPage s a
  opened : Opened s (g.slot a)
  held : (s.page (g.slot a)).addr ≠ 0

/-- `get_physical_addr` of an address of the heap. -/
theorem getPhysicalAddr_of_resident (hl : Linked g s) {a : Word} (h : Resident g s a)
    {alloc user writable : Bool} :
    getPhysicalAddr s.currentPageDir a alloc user writable s =
      (.ok (frameAddr (s.page (g.slot a)).addr ||| (a &&& 0xFFF)), s) := by
  have hlook := (hl.lookup_heap hl.current h.heap).1
  simp only [getPhysicalAddr, bind_apply, read_apply, hl.finished, Bool.true_eq_false, if_false,
    hlook, if_neg h.held, pure_apply]

/-- The frame of a physical address. -/
theorem shift_frameAddr_or (f : Frame) (a : Word) :
    ((frameAddr f ||| (a &&& 0xFFF)) >>> 12).setWidth 20 = f := by
  have hlow : (a &&& 0xFFF) >>> 12 = 0#32 := by
    apply BitVec.eq_of_toNat_eq
    rw [BitVec.toNat_ushiftRight, BitVec.toNat_and, Nat.shiftRight_eq_div_pow]
    exact Nat.div_eq_of_lt (Nat.and_lt_two_pow _ (by decide))
  rw [BitVec.ushiftRight_or_distrib, hlow, BitVec.or_zero, frameAddr_shift]

/-- A table at `t` that did not exist in `s`. -/
structure NewTable (g : Layout) (c : Prop) (F F' : Multiset Block) (t : Word) (s s' : Kernel) :
    Prop where
  grown : Grown g c F F' s s'
  fresh : t ∉ s.tables
  tables : s'.tables = t :: s.tables
  dirs : s'.dirs = s.dirs
  resident : Resident g s' t
  zero : ∀ i, s'.page ⟨t, i⟩ = TableEntry.zero

theorem Valid.notMem_kernel (h : Valid g c F s) (ht : t ∉ s.tables) : t ∉ g.kernel := by
  rintro ⟨i, hi, rfl⟩
  exact ht (h.linked.kernel i hi).1

/-- Free memory holds no table. -/
theorem Valid.notMem_tables (h : Valid g c F s) (hpos : 0 < depthOf F t.toNat) : t ∉ s.tables :=
  fun ht => hpos.ne' (h.heap.tables t ht)

section NewTable

variable {s₁ s₂ : Kernel} {got : Block} (hm : Malloced g c F F' sizeofTable 12 t got s s₁)
  (h : Running g c F s)
include hm h

theorem Malloced.newTable_fresh : t ∉ s.tables ∧ t ∉ s₁.tables ∧ t ∉ g.kernel ∧ t ≠ null := by
  have hfree := (hm.payload_free h.toValid (Nat.le_refl _) (by
    rw [show sizeofTable.toNat = 4096 from rfl]
    omega)).1
  have hfresh := h.notMem_tables hfree
  have htables : s₁.tables = s.tables := (congrArg Kernel.tables hm.rest :)
  have hlo := hm.heapAddr.1
  refine ⟨hfresh, htables ▸ hfresh, h.notMem_kernel hfresh, fun e => ?_⟩
  rw [e] at hlo
  exact absurd hlo (by decide)

/-- The table exists as an object before its memory is cleared. -/
theorem Malloced.newTable_grown : Grown g c F F' s (newTable t s₁).2 := by
  have hfree := hm.payload_free h.toValid (Nat.le_refl _) (by
    rw [show sizeofTable.toNat = 4096 from rfl]
    omega)
  have hgrown := hm.grown h.toValid
  exact hgrown.newTable (hgrown.running h).scratched (hm.newTable_fresh h).2.1
    hm.reserved.aligned hfree.1 hfree.2

/-- The memory of a new table is open to the kernel. -/
theorem newTable_open (hg : Grown g c F F' s s₂) (hpage : s₂.page = (newTable t s₁).2.page) :
    OpenRange g s₂ t sizeofTable.toNat := by
  obtain ⟨-, -, hkernel, -⟩ := hm.newTable_fresh h
  intro a h₁ h₂
  obtain ⟨hheap, hscratch, hopened⟩ := hm.openRange a h₁ h₂
  have henv := (hm.grown h.toValid).env
  have hne : (g.slot a).table ≠ t := fun e =>
    hkernel (e ▸ (h.linked.lookup_heap h.linked.current hheap).2)
  refine ⟨hheap, fun hs => hscratch ?_, ?_⟩
  · rw [henv.scratchPage_iff]
    exact (hg.env.scratchPage_iff a).mp hs
  · have he : s₂.page (g.slot a) = s₁.page (g.slot a) := by
      rw [hpage]
      exact if_neg hne
    rw [Opened, he]
    exact hopened

/-- Clearing the memory of a new table. -/
theorem newTable_ends (hg : Grown g c F F' s s₂) (hpage : s₂.page = (newTable t s₁).2.page)
    (htables : s₂.tables = t :: s.tables) (hdirs : s₂.dirs = s.dirs) :
    Ends (memset t 0 sizeofTable.toNat) s₂
      (fun _ s' => NewTable g c F F' t s s' ∧ s'.dir = s₂.dir) (fun e _ => e.Exhausted) := by
  obtain ⟨hfresh, -, hkernel, -⟩ := hm.newTable_fresh h
  have hsize : sizeofTable.toNat = 4096 := rfl
  have hbounds := hm.heapAddr
  rw [hsize] at hbounds
  have hopen := newTable_open hm h hg hpage
  have hl₂ := hg.valid.linked
  refine (memset_ends hg.valid.sound hl₂ (by omega) hopen 0).mono ?_ ?_
  · rintro - s' hz
    have htables' : s'.tables = t :: s.tables := hz.touch.work.tables_eq.trans htables
    have hedit : ∀ i, Editable g s₂ ⟨t, i⟩ := fun i =>
      hl₂.editable_user (htables ▸ List.mem_cons_self) hkernel
    obtain ⟨hheap, hscratch, hopened⟩ := hopen t (Nat.le_refl _) (by omega)
    refine ⟨⟨hg.zeroed hz hopen fun x h₁ h₂ => (hm.payload_free h.toValid h₁ h₂).1, hfresh, htables',
      hz.touch.work.dirs_eq.trans hdirs,
      ⟨hheap, fun hs => hscratch ((hz.touch.work.scratchPage_iff t).mp hs),
        hopened.touch hz.touch (hl₂.editable_heap hheap hscratch) hl₂.code,
        hz.held t (Nat.le_refl _) (by omega)⟩, fun i => ?_⟩, hz.touch.work.dir_eq⟩
    have hzero : s₂.page ⟨t, i⟩ = TableEntry.zero := by
      rw [hpage]
      exact if_pos rfl
    have hnot : (⟨t, i⟩ : Slot) ∉ g.rangeSlots t sizeofTable.toNat := by
      rintro ⟨a, h₁, h₂, e⟩
      have hk := (hl₂.lookup_heap hl₂.current (hopen a h₁ h₂).1).2
      rw [← e] at hk
      exact hkernel hk
    obtain hkept | hkept := (hz.touch.work.steps.kept (hedit i) hnot).weaker
    · rw [hkept, hzero]
    · rw [hkept, hzero]
      rfl
  · rintro _ - rfl
    exact trivial

end NewTable

/-! ## `get_page` -/

/-- The directory after `get_page` has made the table `t`, which has the frame `f`. -/
def Directory.withTable (x : Directory) (i : BitVec 10) (t : Word) (f : Frame) : Directory :=
  (x.setTable i t).setEntry i ⟨true, true, true, f⟩

/-- A table at `t` has been made for the index `i` of the directory `d`. -/
structure Made (g : Layout) (c : Prop) (F F' : Multiset Block) (d : Word) (i : BitVec 10) (t : Word)
    (s s' : Kernel) : Prop extends NewTable g c F F' t s s' where
  dir : s'.dir = (s.setDir d (·.withTable i t (s'.page (g.slot t)).addr)).dir

theorem NewTable.ne_null (h : NewTable g c F F' t s s') : t ≠ null := by
  intro e
  have := h.resident.heap.1
  rw [e] at this
  exact absurd this (by decide)

/-- The table belongs to one index of one directory. -/
theorem Made.owned (h : Made g c F F' d i t s s') (hs : Valid g c F s) (hown : OwnTables g s D) :
    OwnTables g s' D := by
  have hwide : OwnTables g { s with tables := t :: s.tables } D :=
    hown.congr (List.subset_cons_self t _) fun _ _ _ _ => rfl
  have hlink := hwide.setTable (d := d) (i := i) List.mem_cons_self (hs.notMem_kernel h.fresh)
    fun d' hd' j hj => hown.ne_of_notMem h.fresh h.ne_null hd' hj
  refine hlink.congr (by rw [h.tables]; exact fun _ h => h) fun d' _ j _ => ?_
  rw [h.dir]
  rcases eq_or_ne d' d with rfl | hne
  · rw [Kernel.dir_setDir_self, Kernel.dir_setDir_self]
    rfl
  · rw [Kernel.dir_setDir_of_ne _ _ hne, Kernel.dir_setDir_of_ne _ _ hne]

/-- The new table is linked before its memory is cleared. -/
theorem Malloced.linkTable {s₁ : Kernel} {got : Block}
    (hm : Malloced g c F F' sizeofTable 12 t got s s₁) (h : Running g c F s) (hi : ¬ g.Shared i)
    (d : Word) : Grown g c F F' s ((newTable t s₁).2.setDir d (·.setTable i t)) := by
  obtain ⟨hfresh, -, hkernel, hne⟩ := hm.newTable_fresh h
  have hgrown := hm.newTable_grown h
  have hdir₁ : s₁.dir = s.dir := (congrArg Kernel.dir hm.rest :)
  have hdirs₁ : s₁.dirs = s.dirs := (congrArg Kernel.dirs hm.rest :)
  refine hgrown.setDir (hgrown.valid.linked.setDir
    (fun _ j hj => if_neg fun e : j = i => hi (e ▸ hj))
    (hgrown.valid.linked.owned.setTable List.mem_cons_self hkernel fun d' hd' j hj => ?_))
  change (s₁.dir d').tables j ≠ t
  change d' ∈ s₁.dirs at hd'
  rw [hdir₁]
  rw [hdirs₁] at hd'
  exact h.linked.owned.ne_of_notMem hfresh hne hd' hj

theorem getPageWith_ends (h : Running g c F s) (hi : ¬ g.Shared (tbIdx addr))
    (hnull : (s.dir d).tables (tbIdx addr) = null) :
    Ends (getPageWith kmalloc d addr) s
      (fun p s' => ∃ F' t, Made g c F F' d (tbIdx addr) t s s' ∧ p = ⟨t, tbOffset addr⟩)
      (fun e _ => e.Exhausted) := by
  rw [getPageWith, Ends.bind_read, if_pos hnull]
  refine Ends.bind (kmalloc_ends h.toValid (by decide) (by decide)) ?_
  rintro t s₁ ⟨F', got, hm⟩
  have hfresh := (hm.newTable_fresh h).1
  have hdir₁ : s₁.dir = s.dir := (congrArg Kernel.dir hm.rest :)
  have hdirs₁ : s₁.dirs = s.dirs := (congrArg Kernel.dirs hm.rest :)
  have htables₁ : s₁.tables = s.tables := (congrArg Kernel.tables hm.rest :)
  have hgrown₂ := hm.linkTable h hi d
  refine (Ends.bind_of_ok (modify_apply _ _)).mpr ((Ends.bind_of_ok (modify_apply _ _)).mpr ?_)
  refine Ends.bind (newTable_ends hm h hgrown₂ rfl (htables₁ ▸ rfl) hdirs₁) ?_
  rintro - s₃ ⟨hnew, hdir₃⟩
  have hl₃ := hnew.grown.valid.linked
  have hlink' : Linked g (s₃.setDir d (·.setEntry (tbIdx addr)
      ⟨true, true, true, (s₃.page (g.slot t)).addr⟩)) := hl₃.setDir_of_tables fun _ => rfl
  rw [Ends.bind_read]
  refine (Ends.bind_of_ok (getPhysicalAddr_of_resident hl₃ hnew.resident)).mpr ?_
  rw [shift_frameAddr_or]
  refine (Ends.bind_of_ok (modify_apply _ _)).mpr ⟨F', t, ⟨⟨hnew.grown.setDir hlink', hfresh,
    hnew.tables, hnew.dirs, ?_, hnew.zero⟩, ?_⟩, rfl⟩
  · exact ⟨hnew.resident.heap, hnew.resident.scratch, hnew.resident.opened, hnew.resident.held⟩
  funext d'
  rcases eq_or_ne d' d with rfl | hd'
  · rw [Kernel.dir_setDir_self, Kernel.dir_setDir_self, hdir₃, Kernel.dir_setDir_self]
    rw [← hdir₁]
    rfl
  · rw [Kernel.dir_setDir_of_ne _ _ hd', Kernel.dir_setDir_of_ne _ _ hd', hdir₃,
      Kernel.dir_setDir_of_ne _ _ hd', ← hdir₁]

end Page

end Jkos
