import Jkos.Page.System

/-!
# Evaluating the page functions

`memset` clears new tables and directories byte by byte, and `clone_table` copies entry by
entry. Both have closed forms, whose evaluation takes a step for each page instead of one
for each byte, so that runs of `get_page` and `clone_directory` can be computed.
-/

namespace Jkos.Page

open Exec Kheap

variable {s : Kernel} {f : Frame} {v : Byte} {t t' dest src : Word}

/-! ## `memset` page by page -/

/-- Memory with some bytes of one frame set. -/
def fillPhys (m : Frame → BitVec 12 → Byte) (f : Frame) (off n : Nat) (v : Byte) :
    Frame → BitVec 12 → Byte :=
  fun f' o => if f' = f ∧ off ≤ o.toNat ∧ o.toNat < off + n then v else m f' o

theorem fillPhys_zero (m : Frame → BitVec 12 → Byte) (off : Nat) : fillPhys m f off 0 v = m := by
  funext f' o
  exact if_neg (by omega)

theorem fillPhys_setByte (s : Kernel) (t : Word) (n : Nat) :
    fillPhys (s.setByte f (pageOffset t) v).phys f (t.toNat % 4096 + 1) n v =
      fillPhys s.phys f (t.toNat % 4096) (n + 1) v := by
  funext f' o
  have ho : o = pageOffset t ↔ o.toNat = t.toNat % 4096 := by
    rw [← toNat_pageOffset]
    exact ⟨congrArg _, BitVec.eq_of_toNat_eq⟩
  simp only [fillPhys, Kernel.setByte, Kernel.setFrame]
  by_cases hf : f' = f
  · simp only [hf, true_and, if_true, ho]
    split_ifs <;> first | rfl | omega
  · simp only [hf, false_and, if_false]

/-- The processor walks alike for all addresses of a page, whatever memory holds. -/
theorem walk_congr (hpage : pageOf t' = pageOf t) (m : Frame → BitVec 12 → Byte)
    (write user : Bool) : walk { s with phys := m } t' write user = walk s t write user := by
  obtain ⟨hidx, hoff⟩ := idx_eq_of_pageOf hpage
  rw [walk, walk, lookup, lookup, hidx, hoff]

theorem writeByte_of_walk {eip : Word}
    (hwalk : walk s t true (decide (s.kernelCodeEnd ≤ eip)) = .ok f) :
    writeByte t v eip s = (.ok (), s.setByte f (pageOffset t) v) := by
  have hfuel : loopBound = (loopBound - 1) + 1 := by decide
  rw [writeByte, access, hfuel, bind_ok (accessLoop_of_walk hwalk)]
  rfl

/-- `memset` within a page that the kernel can write. -/
theorem memset_of_walk (n : Nat) : ∀ (t : Word) (s : Kernel), t.toNat % 4096 + n ≤ 4096 →
    walk s t true (decide (s.kernelCodeEnd ≤ s.kernelCodeEnd - 1)) = .ok f →
    memset t v n s = (.ok (), { s with phys := fillPhys s.phys f (t.toNat % 4096) n v }) := by
  induction n with
  | zero =>
      intro t s _ _
      rw [fillPhys_zero]
      rfl
  | succ n ih =>
      intro t s hfit hwalk
      have hrun : memset t v (n + 1) s = memset (t + 1) v n (s.setByte f (pageOffset t) v) := by
        rw [memset, kernelEip, bind_ok (read_apply _ _), bind_ok (writeByte_of_walk hwalk)]
      rw [hrun, ← fillPhys_setByte]
      obtain rfl | hn := Nat.eq_zero_or_pos n
      · rw [fillPhys_zero]
        rfl
      · have hnat : (t + 1).toNat = t.toNat + 1 := by
          have hlt := t.isLt
          rw [BitVec.toNat_add, show (1 : Word).toNat = 1 from rfl]
          exact Nat.mod_eq_of_lt (by omega)
        have hpage : pageOf (t + 1) = pageOf t := by
          apply Word.ext_toNat
          rw [toNat_pageOf, toNat_pageOf, hnat]
          omega
        have hoff : (t + 1).toNat % 4096 = t.toNat % 4096 + 1 := by omega
        have hwalk' : walk (s.setByte f (pageOffset t) v) (t + 1) true
            (decide (s.kernelCodeEnd ≤ s.kernelCodeEnd - 1)) = .ok f :=
          (walk_congr hpage _ _ _).trans hwalk
        rw [← hoff]
        exact ih (t + 1) _ (by omega) hwalk'

/-- `memset` that sets the rest of a page at once where the kernel can write it. -/
def fillPage (t : Word) (v : Byte) (n : Nat) : Prog Unit := fun s =>
  match walk s t true (decide (s.kernelCodeEnd ≤ s.kernelCodeEnd - 1)) with
  | .ok f =>
      if t.toNat % 4096 + n ≤ 4096 then
        (.ok (), { s with phys := fillPhys s.phys f (t.toNat % 4096) n v })
      else memset t v n s
  | .error _ => memset t v n s

theorem memset_eq_fillPage (t : Word) (v : Byte) (n : Nat) : memset t v n = fillPage t v n := by
  funext s
  rw [fillPage]
  split
  · next f hwalk =>
      split
      · next hfit => exact memset_of_walk n t s hfit hwalk
      · rfl
  · rfl

theorem memset_add (v : Byte) (m n : Nat) : ∀ t : Word, memset t v (m + n) = (do
    memset t v m
    memset (t + BitVec.ofNat 32 m) v n) := by
  induction m with
  | zero =>
      intro t
      rw [Nat.zero_add, memset, pure_bind, BitVec.add_zero]
  | succ m ih =>
      intro t
      rw [Nat.add_right_comm, memset, memset]
      simp only [bind_assoc, ih, add_one_add]

/-- `memset` of whole pages: the first byte of each faults the page in. -/
def fillPages (v : Byte) : Nat → Word → Prog Unit
  | 0, _ => pure ()
  | k + 1, t => do
    writeByte t v (← kernelEip)
    fillPage (t + 1) v 4095
    fillPages v k (t + 4096)

theorem memset_eq_fillPages (v : Byte) (k : Nat) : ∀ t : Word,
    memset t v (4096 * k) = fillPages v k t := by
  induction k with
  | zero => exact fun _ => rfl
  | succ k ih =>
      intro t
      rw [Nat.mul_succ, Nat.add_comm, memset_add, show (4096 : Nat) = 4095 + 1 from rfl, memset,
        fillPages, memset_eq_fillPage]
      simp only [bind_assoc]
      congr 1
      funext _
      congr 1
      funext _
      congr 1
      funext _
      exact ih _

theorem memset_table (t : Word) : memset t 0 sizeofTable.toNat = fillPages 0 1 t :=
  memset_eq_fillPages 0 1 t

theorem memset_directory (t : Word) : memset t 0 sizeofDirectory.toNat = (do
    fillPages 0 2 t
    memset (t + 8192) 0 4) := by
  have h := memset_add 0 (4096 * 2) 4 t
  rw [memset_eq_fillPages] at h
  exact h

/-! ## `get_page` -/

/-- `getPageWith kmalloc`, with the closed form of `memset`. -/
def getPageFill (d addr : Word) : Prog Slot := do
  let i := tbIdx addr
  let t ← Exec.read fun s => (s.dir d).tables i
  if t = null then
    let t ← kmalloc sizeofTable 12
    newTable t
    Exec.modify (·.setDir d fun x => { x with tables := fun j => if j = i then t else x.tables j })
    fillPages 0 1 t
    let phys ← getPhysicalAddr (← Exec.read (·.currentPageDir)) t false false true
    Exec.modify (·.setDir d fun x => { x with entries := fun j =>
      if j = i then ⟨true, true, true, (phys >>> 12).setWidth 20⟩ else x.entries j })
    pure ⟨t, tbOffset addr⟩
  else pure ⟨t, tbOffset addr⟩

theorem getPageWith_eq_fill (d addr : Word) : getPageWith kmalloc d addr = getPageFill d addr := by
  simp only [getPageWith, getPageFill, memset_table]

/-! ## `clone_directory` -/

/-- The loop of `clone_table` from the entry `i` on, at once where no entry has a frame. -/
def cloneRest (dest src : Word) (cnt i : Nat) : Prog Unit := fun s =>
  if dest ≠ src ∧ i + cnt ≤ 1024 ∧
      (List.range cnt).all (fun k => (s.page ⟨src, BitVec.ofNat 10 (i + k)⟩).addr = 0) then
    (.ok (), { s with
      page := fun q =>
        if q.table = dest ∧ i ≤ q.idx.toNat ∧ q.idx.toNat < i + cnt then s.page ⟨src, q.idx⟩
        else s.page q })
  else forIdx (cloneEntry dest src) cnt i s

theorem forIdx_cloneEntry (hne : dest ≠ src) (cnt : Nat) : ∀ (i : Nat) (s : Kernel),
    i + cnt ≤ 1024 →
    (∀ k < cnt, (s.page ⟨src, BitVec.ofNat 10 (i + k)⟩).addr = 0) →
    forIdx (cloneEntry dest src) cnt i s = (.ok (), { s with
      page := fun q =>
        if q.table = dest ∧ i ≤ q.idx.toNat ∧ q.idx.toNat < i + cnt then s.page ⟨src, q.idx⟩
        else s.page q }) := by
  induction cnt with
  | zero =>
      intro i s _ _
      have hnone : ∀ q : Slot, ¬ (q.table = dest ∧ i ≤ q.idx.toNat ∧ q.idx.toNat < i + 0) :=
        fun q h => by omega
      simp only [hnone, if_false]
      rfl
  | succ cnt ih =>
      intro i s hle hzero
      have hi : (BitVec.ofNat 10 i).toNat = i := by
        rw [BitVec.toNat_ofNat]
        exact Nat.mod_eq_of_lt (by omega)
      have hstep : cloneEntry dest src (BitVec.ofNat 10 i) s =
          (.ok (), s.setEntry ⟨dest, BitVec.ofNat 10 i⟩
            (fun _ => s.page ⟨src, BitVec.ofNat 10 i⟩)) :=
        congrArg (Prod.mk _) (if_pos (hzero 0 (Nat.succ_pos cnt)))
      have hsrc : ∀ j, (⟨src, j⟩ : Slot) ≠ ⟨dest, BitVec.ofNat 10 i⟩ :=
        fun j e => hne (congrArg Slot.table e).symm
      have hrest := ih (i + 1) (s.setEntry ⟨dest, BitVec.ofNat 10 i⟩
        (fun _ => s.page ⟨src, BitVec.ofNat 10 i⟩)) (by omega) fun k hk => by
          rw [Kernel.page_setEntry_of_ne _ _ (hsrc _), show i + 1 + k = i + (k + 1) by omega]
          exact hzero (k + 1) (Nat.succ_lt_succ hk)
      rw [forIdx, bind_ok hstep, hrest]
      simp only [Kernel.page_setEntry_of_ne _ _ (hsrc _)]
      congr 2
      funext q
      obtain ⟨table, idx⟩ := q
      by_cases hq : (⟨table, idx⟩ : Slot) = ⟨dest, BitVec.ofNat 10 i⟩
      · obtain ⟨rfl, rfl⟩ := Slot.mk.inj hq
        rw [if_neg (by rw [hi]; omega), if_pos ⟨rfl, by rw [hi], by rw [hi]; omega⟩]
        exact Kernel.page_setEntry_self _ _ _
      · have hidx : table = dest → idx.toNat ≠ i := fun htable e =>
          hq (by rw [htable, BitVec.eq_of_toNat_eq (e.trans hi.symm)])
        have hiff : (table = dest ∧ i + 1 ≤ idx.toNat ∧ idx.toNat < i + 1 + cnt) ↔
            (table = dest ∧ i ≤ idx.toNat ∧ idx.toNat < i + (cnt + 1)) := by
          constructor
          · rintro ⟨htable, h₁, h₂⟩
            exact ⟨htable, by omega, by omega⟩
          · rintro ⟨htable, h₁, h₂⟩
            have := hidx htable
            exact ⟨htable, by omega, by omega⟩
        simp only [hiff, Kernel.page_setEntry_of_ne _ _ hq]

theorem forIdx_eq_cloneRest (cnt i : Nat) :
    forIdx (cloneEntry dest src) cnt i = cloneRest dest src cnt i := by
  funext s
  rw [cloneRest]
  split
  · next h =>
      obtain ⟨hne, hle, hall⟩ := h
      refine forIdx_cloneEntry hne cnt i s hle fun k hk => ?_
      exact of_decide_eq_true (List.all_eq_true.mp hall k (List.mem_range.mpr hk))
  · rfl

/-- `clone_table`, where at most the first entry has a frame. -/
def cloneTableFill (src : Word) : Prog Word := do
  let dest ← kmalloc sizeofTable 12
  newTable dest
  fillPages 0 1 dest
  cloneEntry dest src 0
  cloneRest dest src 1023 1
  pure dest

theorem cloneTable_eq_fill (src : Word) : cloneTable src = cloneTableFill src := by
  have hloop : ∀ dest, forIdx (cloneEntry dest src) 1024 0 = (do
      cloneEntry dest src 0
      cloneRest dest src 1023 1) := fun dest => by
    rw [forIdx, forIdx_eq_cloneRest]
    rfl
  simp only [cloneTable, cloneTableFill, memset_table, hloop, bind_assoc]

def copyStackFill (dest i : Word) : Prog Unit := do
  let _ ← getPageFill dest i
  let destAddr ← getPhysicalAddr dest i true false true
  let srcAddr ← getPhysicalAddr (← Exec.read (·.currentPageDir)) i false false true
  copyPagePhysical destAddr srcAddr

def cloneUserTableFill (dest src : Word) (i : BitVec 10) : Prog Unit := do
  let t ← Exec.read (fun s => (s.dir src).tables i)
  if t = null then pure ()
  else
    let t' ← cloneTableFill t
    Exec.modify (·.setDir dest fun x =>
      { x with tables := fun j => if j = i then t' else x.tables j })
    let phys ← getPhysicalAddr (← Exec.read (·.currentPageDir)) t' false false true
    let e ← Exec.read (fun s => (s.dir src).entries i)
    Exec.modify (·.setDir dest fun x => { x with entries := fun j =>
      if j = i then { e with addr := (phys >>> 12).setWidth 20 } else x.entries j })

/-- `clone_directory`, with the closed forms. -/
def cloneFill (src : Word) : Prog Word := do
  let dest ← kmalloc sizeofDirectory 12
  newDirectory dest
  fillPages 0 2 dest
  memset (dest + 8192) 0 4
  let phys ← getPhysicalAddr (← Exec.read (·.currentPageDir)) (dest + 4096) false false true
  Exec.modify (·.setDir dest ({ · with phyaddr := phys }))
  let low ← Exec.read (·.kernelLowNtable)
  forIdx (linkTable dest src) low 0
  forIdx (linkTable dest src) (heapEndIdx - heapBeginIdx) heapBeginIdx
  forPages (copyStackFill dest) kernelStackPos loopBound (kernelStackPos - kernelStackSize)
  forIdx (cloneUserTableFill dest src) (heapBeginIdx - low) low
  addDirectory dest
  pure dest

theorem cloneDirectory_eq_fill (src : Word) : cloneDirectory src = cloneFill src := by
  have hstack : copyStack = copyStackFill := by
    funext dest i
    simp only [copyStack, copyStackFill, getPageWith_eq_fill]
  have htable : cloneUserTable = cloneUserTableFill := by
    funext dest src i
    simp only [cloneUserTable, cloneUserTableFill, cloneTable_eq_fill]
  simp only [cloneDirectory, cloneFill, memset_directory, bind_assoc, hstack, htable]

/-! ## A run of the boot kernel -/

/-- The kernel after `Page::init`, with a table for the last user pages. -/
@[irreducible] def bootTabled : Kernel := (getPageFill 0x2E0000 0xEF800000 bootStarted).2

/-- The first of these pages is allocated, for the user and writable. -/
@[irreducible] def bootUser : Kernel := (alloc ⟨0xEFC04000, 0⟩ true true bootTabled).2

/-- The directory has been cloned. -/
@[irreducible] def bootForked : Kernel := (cloneFill 0x2E0000 bootUser).2

/-- The user has written to the page, which then is no longer shared. -/
@[irreducible] def bootWritten : Kernel := (writeByte 0xEF800003 7 0xEF800000 bootForked).2

/-- The clone has written to its page, and the first directory is enabled again. -/
@[irreducible] def bootParted : Kernel :=
  (enable 0x2E0000 (writeByte 0xEF800003 8 0xEF800000 (enable 0xEFC06000 bootWritten).2).2).2

/-- Go on only from an expected state. -/
def expect (f : Kernel → Bool) : Prog Unit := do
  if ← Exec.read f then pure () else Exec.throw .assertion

/-- A user table is made and the directory is cloned. In the clone, another table is made, a
request is served, the second page of its block faults, and the block is freed. -/
def splitTables : Prog Unit := do
  let _ ← getPageFill 0x2E0000 0xEF800000
  expect fun s => decide (0x2E0000 ∈ s.dirs)
  let dest ← cloneFill 0x2E0000
  expect fun s => decide (dest = 0xEFC06000 ∧ dest ∈ s.dirs)
  enable dest
  let _ ← getPageFill dest 0xEF400000
  let p ← kmalloc 10000 0
  expect fun s => decide (walk s (p + 4096) true (decide (s.kernelCodeEnd ≤ 0x100000)) = .error 2)
  pageFault (p + 4096) 2 0x100000
  kfree p
  expect fun s => decide (s.dirs = [0xEFC06000, 0x2E0000] ∧
    lookup s 0xEFC06000 0xEF400000 = some ⟨0xEFC0D000, 0⟩ ∧ lookup s 0x2E0000 0xEF400000 = none)

@[irreducible] def bootSplit : Kernel := (splitTables bootStarted).2

theorem boot_runs :
    (getPageFill 0x2E0000 0xEF800000 bootStarted).1.toOption = some ⟨0xEFC04000, 0⟩ ∧
    (alloc ⟨0xEFC04000, 0⟩ true true bootTabled).1.toOption = some () ∧
    (cloneFill 0x2E0000 bootUser).1.toOption = some 0xEFC06000 ∧
    (writeByte 0xEF800003 7 0xEF800000 bootForked).1.toOption = some () ∧
    (writeByte 0xEF800003 8 0xEF800000 (enable 0xEFC06000 bootWritten).2).1.toOption = some () ∧
    (readByte 0xEF800003 0xEF800000 bootParted).1.toOption = some 7 ∧
    lookup bootForked 0x2E0000 0xEF800000 = some ⟨0xEFC04000, 0⟩ ∧
    (bootForked.page ⟨0xEFC04000, 0⟩).addr ≠ 0 ∧
    bootForked.frameRefCnt (bootForked.page ⟨0xEFC04000, 0⟩).addr = 2 ∧
    (splitTables bootStarted).1.toOption = some () := by
  decide +kernel

theorem bootTabled_run :
    getPageWith kmalloc 0x2E0000 0xEF800000 bootStarted = (.ok ⟨0xEFC04000, 0⟩, bootTabled) := by
  rw [bootTabled, getPageWith_eq_fill]
  exact eq_ok_of_toOption boot_runs.1

theorem bootUser_run : alloc ⟨0xEFC04000, 0⟩ true true bootTabled = (.ok (), bootUser) := by
  rw [bootUser]
  exact eq_ok_of_toOption boot_runs.2.1

theorem bootForked_run : cloneDirectory 0x2E0000 bootUser = (.ok 0xEFC06000, bootForked) := by
  rw [bootForked, cloneDirectory_eq_fill]
  exact eq_ok_of_toOption boot_runs.2.2.1

theorem bootWritten_run :
    writeByte 0xEF800003 7 0xEF800000 bootForked = (.ok (), bootWritten) := by
  rw [bootWritten]
  exact eq_ok_of_toOption boot_runs.2.2.2.1

/-! ## Tables of two directories -/

theorem expect_eq_ok {f : Kernel → Bool} {s' : Kernel} (h : expect f s = (.ok (), s')) :
    f s = true ∧ s' = s := by
  cases hf : f s with
  | true =>
      simp only [expect, bind_apply, read_apply, hf] at h
      cases h
      exact ⟨rfl, rfl⟩
  | false =>
      simp only [expect, bind_apply, read_apply, hf] at h
      cases h

theorem bootSplit_run : splitTables bootStarted = (.ok (), bootSplit) := by
  obtain ⟨-, -, -, -, -, -, -, -, -, hsplit⟩ := boot_runs
  rw [bootSplit]
  exact eq_ok_of_toOption hsplit

theorem getPage_of_fill {d addr : Word} {p : Slot} {s' : Kernel}
    (h : getPageFill d addr s = (.ok p, s')) : getPage d addr true s = (.ok (some p), s') := by
  rw [getPage, if_pos rfl, getPageWith_eq_fill, bind_ok h]
  rfl

/-- All of this is a run, after which the directories have different tables. -/
theorem bootSplit_runs : MemRuns ⟨bootStarted, 0⟩ ⟨bootSplit, 0⟩ ∧
    bootSplit.dirs = [0xEFC06000, 0x2E0000] ∧
    lookup bootSplit 0xEFC06000 0xEF400000 = some ⟨0xEFC0D000, 0⟩ ∧
    lookup bootSplit 0x2E0000 0xEF400000 = none := by
  obtain ⟨p, s₁, htable, h₁⟩ := bind_eq_ok bootSplit_run
  obtain ⟨_, s₂, hexpect, h₂⟩ := bind_eq_ok h₁
  obtain ⟨hsrc, rfl⟩ := expect_eq_ok hexpect
  obtain ⟨dest, s₃, hclone, h₃⟩ := bind_eq_ok h₂
  obtain ⟨_, s₄, hexpect, h₄⟩ := bind_eq_ok h₃
  obtain ⟨hdest, rfl⟩ := expect_eq_ok hexpect
  obtain ⟨rfl, hdest⟩ := of_decide_eq_true hdest
  obtain ⟨_, s₅, henable, h₅⟩ := bind_eq_ok h₄
  obtain ⟨q, s₆, htable', h₆⟩ := bind_eq_ok h₅
  obtain ⟨ptr, s₇, hserve, h₇⟩ := bind_eq_ok h₆
  obtain ⟨_, s₈, hexpect, h₈⟩ := bind_eq_ok h₇
  obtain ⟨hwalk, rfl⟩ := expect_eq_ok hexpect
  obtain ⟨_, s₉, hfault, h₉⟩ := bind_eq_ok h₈
  obtain ⟨_, s₁₀, hfree, h₁₀⟩ := bind_eq_ok h₉
  obtain ⟨hend, hsame⟩ := expect_eq_ok h₁₀
  rw [← hsame] at hend hfree
  refine ⟨?_, of_decide_eq_true hend⟩
  have hstart : 0x2E0000 ∈ bootStarted.dirs := by
    rw [bootStarted_dirs]
    exact List.mem_singleton_self _
  have hstep : MemStep ⟨s₄, 0⟩ ⟨s₅, 0⟩ := by
    cases henable
    exact .enable hdest
  have hdest' : 0xEFC06000 ∈ s₅.dirs := by
    cases henable
    exact hdest
  rw [← cloneDirectory_eq_fill] at hclone
  have htables : MemRuns ⟨bootStarted, 0⟩ ⟨s₆, 0⟩ :=
    (((Relation.ReflTransGen.single (.getPage hstart (getPage_of_fill htable))).tail
      (.clone (of_decide_eq_true hsrc) hclone)).tail hstep).tail
      (.getPage hdest' (getPage_of_fill htable'))
  have hblock : MemRuns ⟨bootStarted, 0⟩ ⟨s₉, ⟨ptr, 10000⟩ ::ₘ 0⟩ :=
    (htables.tail (.heap (.kmalloc (by decide) (Nat.zero_le 22) hserve))).tail
      (.fault (of_decide_eq_true hwalk) hfault)
  exact hblock.tail (.heap (.kfree (x := ⟨ptr, 10000⟩) hfree))

/-- Both directories have the tables of the boot kernel, though their own tables differ. -/
theorem boot_common : KernelCommon bootStarted bootSplit ∧
    lookup bootSplit 0xEFC06000 0xEF400000 = some ⟨0xEFC0D000, 0⟩ ∧
    lookup bootSplit 0x2E0000 0xEF400000 = none := by
  obtain ⟨hruns, -, hlookups⟩ := bootSplit_runs
  exact ⟨kernel_common bootKernel_booted bootStarted_run hruns, hlookups⟩

/-- The processor finds the tables of both directories. -/
theorem boot_views : ViewsAgree bootSplit 0xEFC06000 ∧ ViewsAgree bootSplit 0x2E0000 := by
  obtain ⟨hruns, hdirs, -⟩ := bootSplit_runs
  have hviews := views_agree bootKernel_booted bootStarted_run hruns
  rw [hdirs] at hviews
  exact ⟨hviews _ (by decide), hviews _ (by decide)⟩

end Jkos.Page
