import Jkos.Elf.Exec
import Jkos.Page.Oblivious
import Jkos.Page.Shared

/-!
# The image of a program

`load_elf` in the kernel: what the user reads from the segments of a program that has been
loaded. The bytes are those of the file, and zeros behind them, except that a part of zeros
within a single page clears this page from its first byte on, with what the segment and the
ones before it have there.
-/

namespace Jkos.Elf

open Exec (Ends)
open Page Fs

variable {g : Layout} {s s' s₀ s₁ : Kernel} {low : Word} {file : ByteFile} {entry a b : Word}
  {v w : Byte} {c : Content} {m : Frame → BitVec 12 → Byte}

/-- `load_elf` in the kernel. -/
def loadElfIn (file : Option ByteFile) : Prog (Except Word Word) := do
  let low ← Exec.read (·.userMemLow)
  let high ← Exec.read (·.userMemHigh)
  execCalls (loadElf low high file).2
  pure (loadElf low high file).1

/-- The user has this byte at the address: whoever reads it gets it, unless frames run out. -/
structure Reads (s : Kernel) (b : Word) (v : Byte) : Prop where
  shows : peek s s.currentPageDir b = some v
  read : ∀ eip, Ends (readByte b eip) s (fun w _ => w = v) (fun e _ => e = .noFreeFrame)

theorem Reads.unique (h : Reads s b v) (h' : Reads s b w) : v = w :=
  Option.some.inj (h.shows.symm.trans h'.shows)

/-! ## A run of the loader -/

/-- The addresses in the pages of the segments. -/
def pages (file : ByteFile) : Set Word := {b | ∃ x ∈ segments file, x.OnPage b}

theorem fits_of_loaded (h : ∀ header ∈ headers file, Loaded low file.contents header) :
    ∀ x ∈ segments file, x.Fits low := by
  intro x hx
  obtain ⟨header, hheader, rfl⟩ := List.mem_map.mp hx
  exact (h header hheader).fits

/-- A successful run makes the calls of the segments. -/
theorem loadElfIn_ok (hhigh : s.userMemHigh = kernelHeapBegin - 1)
    (hload : loadElfIn (some file) s = (.ok (.ok entry), s')) :
    (∀ header ∈ headers file, Loaded s.userMemLow file.contents header) ∧
      execCalls ((segments file).flatMap Segment.calls) s = (.ok (), s') := by
  obtain ⟨u, t, hexec, hpure⟩ := Exec.bind_eq_ok (x := execCalls _) hload
  obtain ⟨hresult, rfl⟩ := Prod.mk.inj hpure
  have hrun : loadElf s.userMemLow s.userMemHigh (some file) =
      (.ok entry, (loadElf s.userMemLow s.userMemHigh (some file)).2) :=
    Prod.ext (Except.ok.inj hresult) rfl
  obtain ⟨hcalls, hloaded⟩ := loadElf_calls hhigh hrun
  rw [hcalls] at hexec
  exact ⟨hloaded, hexec⟩

/-- The pages of the segments lie in the user range. -/
theorem userPages (hlow : low.toNat = g.low * 2 ^ 22) (hfits : ∀ x ∈ segments file, x.Fits low) :
    UserPages g (pages file) := by
  have hheap : heapBeginIdx = 959 := by decide
  refine ⟨?_, ?_⟩
  · rintro a ⟨x, hx, h₁, h₂⟩
    obtain ⟨-, -, -, hend⟩ := (hfits x hx).dataEnd_le
    have hle := (hfits x hx).low_le
    rw [Layout.User, toNat_tbIdx, hheap]
    omega
  · rintro a ⟨x, hx, ha⟩ b hpage
    rw [pageOf_eq_iff] at hpage
    refine ⟨x, hx, ?_⟩
    rw [Segment.OnPage, hpage]
    exact ha

/-- What memory holds is no concern of the page tables. -/
theorem running_phys {F : Multiset Kheap.Block} (h : Running g True F s)
    (m : Frame → BitVec 12 → Byte) : Running g True F { s with phys := m } := by
  refine ⟨⟨⟨h.sound.frames.congr rfl rfl rfl rfl rfl rfl,
    fun p hp => h.sound.shaped p ⟨hp.counted, hp.ordinary⟩,
    fun hc p hp => h.sound.exclusive hc p ⟨hp.counted, hp.ordinary⟩⟩, h.linked.congr rfl,
    ⟨⟨h.heap.tables, h.heap.dirs, h.heap.scratch⟩, h.heap.frees, h.heap.proper, h.heap.once⟩⟩,
    ⟨h.scratched.entry, h.scratched.ne⟩⟩

/-- The bytes that have been followed. -/
theorem Follows.reads {U : Set Word} {σ : Word → Content} (h : Follows g U s₀ σ s)
    (hU : UserPages g U) (hb : b ∈ U) (hv : (σ b).byte = .value v) : Reads s b v := by
  obtain ⟨F, hs⟩ := h.running
  have hshown := (h.describes b hb).shown
  rw [hv] at hshown
  obtain ⟨⟨p, hlook, huser⟩, hpeek⟩ := hshown
  refine ⟨hpeek, fun eip => ?_⟩
  have hp := h.editable hU hb hlook
  obtain ⟨bytes, hview, hbyte⟩ := (peek_eq_some hlook).mp hpeek
  have halloc : (s.page p).allocable = true := by
    rw [view] at hview
    split at hview
    · next hheld => exact (hs.sound.shaped p hp).2 hheld
    · split at hview
      · next hopen => exact hopen.1
      · cases hview
  have hgrant : Granted s p false eip := ⟨⟨halloc, .inl huser⟩, fun hw => absurd hw (by decide)⟩
  refine (readByte_ends hs.sound hlook hp hgrant).mono ?_ (fun _ _ h => h)
  rintro w s' ⟨-, bytes', -, rfl, hsame⟩
  rw [hsame (fun _ => hs.scratched.ne) bytes hview, hbyte]

section Run

variable {F : Multiset Kheap.Block} (hs : Running g True F s)
  (hbounds : UserBounds s)
  (hun : ∀ a ∈ pages file, PageUnshared s s.currentPageDir a)
  (hc : ∀ a ∈ pages file, c.Describes { s with phys := m } { s with phys := m } a)
  (hload : loadElfIn (some file) { s with phys := m } = (.ok (.ok entry), s'))
include hs hbounds hun hc hload

/-- A run of the loader, followed from what is known about its pages. -/
theorem loadElfIn_follows :
    (∀ header ∈ headers file, Loaded s.userMemLow file.contents header) ∧
      UserPages g (pages file) ∧ Follows g (pages file) { s with phys := m }
        (fun b => effects ((segments file).flatMap Segment.calls) b c) s' := by
  obtain ⟨hloaded, hexec⟩ := loadElfIn_ok (s := { s with phys := m }) hbounds.high hload
  have hfits := fits_of_loaded hloaded
  have hlow : s.userMemLow.toNat = g.low * 2 ^ 22 := by rw [hbounds.low, hs.linked.low]
  have hU := userPages hlow hfits
  have hstart : Follows g (pages file) { s with phys := m } (fun _ => c) { s with phys := m } :=
    ⟨⟨F, running_phys hs m⟩, .refl, .refl, hun, hc⟩
  have hlegal : LegalRun (pages file) ((segments file).flatMap Segment.calls) (fun _ => c) :=
    legal_segments hfits fun x hx b hb => ⟨x, hx, hb⟩
  exact ⟨hloaded, hU, (hstart.calls hU hlegal).ok hexec⟩

end Run

/-! ## The image -/

/-- The byte number `k` of a segment, as the file has it. -/
def Phdr.imageByte (contents : List Byte) (header : Phdr) (k : Nat) : Byte :=
  if k < min header.filesz.toNat header.memsz.toNat then contents.getD (header.offset.toNat + k) 0
  else 0

/-- The user reads every segment as the file has it, with zeros behind its data. -/
def ImageLoaded (file : ByteFile) (s : Kernel) : Prop :=
  ∀ header ∈ headers file, ∀ k < header.memsz.toNat,
    Reads s (header.vaddr + BitVec.ofNat 32 k) (header.imageByte file.contents k)

/-- The bytes of a segment that lie in a page which it or a later segment wipes are zeros in
the file, too. -/
def WipesZeros (file : ByteFile) : Prop :=
  ∀ xs x ys, segments file = xs ++ x :: ys → ∀ b, x.InData b → ∀ y ∈ x :: ys, y.Wipes →
    b.toNat / 4096 = y.dataEnd.toNat / 4096 → x.byteAt b = 0

section Image

variable {header : Phdr} {contents : List Byte} (h : Loaded low contents header) {k : Nat}
include h

/-- The address of a byte of the segment. -/
theorem toNat_vaddr_add (hk : k < header.memsz.toNat) :
    (header.vaddr + BitVec.ofNat 32 k).toNat = header.vaddr.toNat + k := by
  have hend := h.fits.end_lt
  change header.vaddr.toNat + header.memsz.toNat < _ at hend
  exact toNat_add_ofNat (Nat.le_of_lt (Nat.lt_trans hend (by decide))) hk

theorem inData_vaddr_add (hk : k < header.memsz.toNat) :
    (Segment.ofPhdr contents header).InData (header.vaddr + BitVec.ofNat 32 k) ↔
      k < min header.filesz.toNat header.memsz.toNat := by
  rw [Segment.InData, h.fits.toNat_dataEnd, h.length, toNat_min, toNat_vaddr_add h hk]
  change header.vaddr.toNat ≤ _ ∧ _ < header.vaddr.toNat + _ ↔ _
  omega

omit h in
theorem byteAt_vaddr_add (hk : k < min header.filesz.toNat header.memsz.toNat) :
    (Segment.ofPhdr contents header).byteAt (header.vaddr + BitVec.ofNat 32 k) =
      header.imageByte contents k := by
  have hlt := (header.memsz).isLt
  have hsub : (header.vaddr + BitVec.ofNat 32 k - header.vaddr).toNat = k := by
    rw [add_sub_cancel_left, BitVec.toNat_ofNat]
    exact Nat.mod_eq_of_lt (by omega)
  rw [Segment.byteAt, Phdr.imageByte, if_pos hk]
  change ((contents.drop _).take _).getD (header.vaddr + BitVec.ofNat 32 k - header.vaddr).toNat 0 = _
  rw [hsub, List.getD_eq_getElem?_getD, List.getD_eq_getElem?_getD,
    List.getElem?_take_of_lt (by rwa [toNat_min]), List.getElem?_drop]

end Image

/-- What every byte of a segment is after the load. -/
theorem Follows.reads_segment {xs ys : List Segment} {x : Segment}
    (h : Follows g (pages file) s₀ (fun b => effects ((segments file).flatMap Segment.calls) b c) s)
    (hU : UserPages g (pages file)) (hfits : ∀ x ∈ segments file, x.Fits low)
    (horder : Ascending (segments file)) (hsplit : segments file = xs ++ x :: ys)
    (h₁ : x.vaddr.toNat ≤ b.toNat) (h₂ : b.toNat < x.spaceEnd.toNat) :
    Reads s b (if ∃ y ∈ x :: ys, y.Clears b then 0 else x.byteAt b) := by
  have hx : x ∈ segments file := hsplit ▸ List.mem_append_right xs List.mem_cons_self
  exact h.reads hU ⟨x, hx, by omega, by omega⟩ (byte_of_ascending hsplit hfits horder h₁ h₂ c)

/-- The image is complete exactly if nothing but zeros is wiped. -/
theorem Follows.imageLoaded_iff
    (h : Follows g (pages file) s₀ (fun b => effects ((segments file).flatMap Segment.calls) b c) s)
    (hU : UserPages g (pages file))
    (hloaded : ∀ header ∈ headers file, Loaded low file.contents header)
    (horder : Ascending (segments file)) : ImageLoaded file s ↔ WipesZeros file := by
  have hfits := fits_of_loaded hloaded
  constructor
  · intro himage xs x ys hsplit b hin y hy hwipes hpage
    obtain ⟨hs₁, hs₂, hsegs, -, hrest⟩ := List.map_eq_append_iff.mp hsplit
    obtain ⟨header, hs₃, rfl, rfl, rfl⟩ := List.map_eq_cons_iff.mp hrest
    have hmem : header ∈ headers file := hsegs ▸ List.mem_append_right hs₁ List.mem_cons_self
    have hheader := hloaded header hmem
    obtain ⟨-, hle, -, -⟩ := hheader.fits.dataEnd_le
    have hspace := hheader.fits.toNat_spaceEnd
    obtain ⟨h₁, h₂⟩ := id hin
    change header.vaddr.toNat ≤ b.toNat at h₁
    change _ = header.vaddr.toNat + header.memsz.toNat at hspace
    have hk : b.toNat - header.vaddr.toNat < header.memsz.toNat := by omega
    have hb : header.vaddr + BitVec.ofNat 32 (b.toNat - header.vaddr.toNat) = b := by
      apply Word.ext_toNat
      rw [toNat_vaddr_add hheader hk]
      omega
    have hread := himage header hmem _ hk
    have hlt := (inData_vaddr_add hheader hk).mp (by rwa [hb])
    rw [← byteAt_vaddr_add hlt, hb] at hread
    have hwiped := h.reads_segment hU hfits horder hsplit h₁ (by omega)
    rw [if_pos ⟨y, hy, .inr ⟨hwipes, hpage⟩⟩] at hwiped
    exact hread.unique hwiped
  · intro hzeros header hmem k hk
    obtain ⟨hs₁, hs₂, hsplit⟩ := List.append_of_mem hmem
    have hheader := hloaded header hmem
    have hsegs : segments file = hs₁.map (.ofPhdr file.contents) ++
        .ofPhdr file.contents header :: hs₂.map (.ofPhdr file.contents) := by
      rw [segments, hsplit, List.map_append, List.map_cons]
    have haddr := toNat_vaddr_add hheader hk
    have hspace := hheader.fits.toNat_spaceEnd
    have hvaddr : (Segment.ofPhdr file.contents header).vaddr.toNat = header.vaddr.toNat := rfl
    change _ = header.vaddr.toNat + header.memsz.toNat at hspace
    have hread := h.reads_segment (b := header.vaddr + BitVec.ofNat 32 k) hU hfits horder hsegs
      (by omega) (by omega)
    by_cases hlt : k < min header.filesz.toNat header.memsz.toNat
    · have hin := (inData_vaddr_add hheader hk).mpr hlt
      rw [← byteAt_vaddr_add hlt]
      split at hread
      · next hcleared =>
          -- a later segment lies behind the byte, so the page has been wiped
          obtain ⟨y, hy, hclears⟩ := hcleared
          have hwiped : y.Wipes ∧ (header.vaddr + BitVec.ofNat 32 k).toNat / 4096 =
              y.dataEnd.toNat / 4096 := by
            refine hclears.resolve_left fun hrange => ?_
            obtain rfl | hlater := List.mem_cons.mp hy
            · have := hin.2
              omega
            · have hyfits := hfits y (hsegs ▸ List.mem_append_right _ hy)
              obtain ⟨hyle, -, -, -⟩ := hyfits.dataEnd_le
              have hpair := horder
              rw [hsegs, Ascending, List.pairwise_append] at hpair
              have hord := (List.pairwise_cons.mp hpair.2.1).1 y hlater
              omega
          rw [hzeros _ _ _ hsegs _ hin y hy hwiped.1 hwiped.2]
          exact hread
      · exact hread
    · have hclears : (Segment.ofPhdr file.contents header).Clears
          (header.vaddr + BitVec.ofNat 32 k) := by
        have hout : ¬ Segment.InData _ _ := fun hin => hlt ((inData_vaddr_add hheader hk).mp hin)
        rw [Segment.InData] at hout
        exact .inl ⟨by omega, by omega⟩
      rw [if_pos ⟨_, List.mem_cons_self, hclears⟩] at hread
      rw [Phdr.imageByte, if_neg hlt]
      exact hread

/-- Nothing is known before. -/
theorem Content.describes_unknown : (⟨none, .unknown⟩ : Content).Describes s₀ s a :=
  ⟨fun h => absurd h (by simp), fun h => absurd h (by simp), trivial⟩

/-- The image of a program whose segments are listed in ascending order, when it is loaded
over pages that are not shared. -/
theorem loadElf_image_iff (hboot : Booted g s₀) (hbounds : UserBounds s₀)
    (hinit : initEmptyPages s₀ = (.ok (), s₁)) (hrun : CowRuns s₁ s)
    (hun : ∀ a ∈ pages file, PageUnshared s s.currentPageDir a)
    (horder : Ascending (segments file))
    (hload : loadElfIn (some file) { s with phys := m } = (.ok (.ok entry), s')) :
    ImageLoaded file s' ↔ WipesZeros file := by
  obtain ⟨F, hs⟩ := hrun.of_boot hboot hinit
  have hbounds' := hbounds.of_boot hboot hinit hrun.pageRuns
  obtain ⟨hloaded, hU, hfollows⟩ := loadElfIn_follows (c := ⟨none, .unknown⟩) hs hbounds' hun
    (fun _ _ => Content.describes_unknown) hload
  exact hfollows.imageLoaded_iff hU hloaded horder

/-- After `Page::init` the user has no tables. -/
theorem lookup_started (hboot : Booted g s₀) (hinit : initEmptyPages s₀ = (.ok (), s₁))
    (ha : g.User (tbIdx a)) : lookup s₁ s₁.currentPageDir a = none := by
  obtain ⟨hstart, hdirs, hdir, -⟩ := (initEmptyPages_ends hboot).ok hinit
  obtain ⟨F, hs⟩ := hstart.running
  have hcur := hs.linked.current
  rw [hdirs, hboot.dirs, List.mem_singleton] at hcur
  rw [lookup, hdir, hcur]
  exact if_pos (hboot.user _ ha.not_shared)

/-! ## Runs of the boot kernel -/

/-- The call, with the closed forms of `get_page` and `memset`. -/
def Call.execFill : Call → Prog Unit
  | .allocInterval start stop => do
      let d ← Exec.read (·.currentPageDir)
      interval (fun i => do
        let p ← getPageFill d i
        Page.alloc p true true) start stop
  | .alloc addr => do
      let p ← getPageFill (← Exec.read (·.currentPageDir)) addr
      Page.alloc p true true
  | .fileRead dest bytes => Page.store dest bytes
  | .memset dest cnt => fillPage dest 0 cnt.toNat
  | .lazyAllocInterval start stop => do
      let d ← Exec.read (·.currentPageDir)
      interval (fun i => do
        let p ← getPageFill d i
        Page.lazyAlloc p true true true) start stop

theorem Call.exec_eq_fill (c : Call) : c.exec = c.execFill := by
  cases c with
  | allocInterval start stop =>
      simp only [Call.exec, Call.execFill, Page.allocInterval, allocIntervalWith, getPageWith_eq_fill]
  | alloc addr => simp only [Call.exec, Call.execFill, getPageWith_eq_fill]
  | fileRead dest bytes => rfl
  | memset dest cnt => exact memset_eq_fillPage dest 0 cnt.toNat
  | lazyAllocInterval start stop =>
      simp only [Call.exec, Call.execFill, Page.lazyAllocInterval, lazyAllocIntervalWith,
        getPageWith_eq_fill]

def execFill : List Call → Prog Unit
  | [] => pure ()
  | c :: cs => do
      c.execFill
      execFill cs

theorem execCalls_eq_fill (cs : List Call) : execCalls cs = execFill cs := by
  induction cs with
  | nil => rfl
  | cons c cs ih => rw [execCalls, execFill, c.exec_eq_fill, ih]

def loadElfFill (file : Option ByteFile) : Prog (Except Word Word) := do
  let low ← Exec.read (·.userMemLow)
  let high ← Exec.read (·.userMemHigh)
  execFill (loadElf low high file).2
  pure (loadElf low high file).1

theorem loadElfIn_eq_fill (file : Option ByteFile) : loadElfIn file = loadElfFill file := by
  simp only [loadElfIn, loadElfFill, execCalls_eq_fill]

/-- A program of one byte. -/
def bootProgram : ByteFile := segmentFile 0x8048000 1 [7]

/-- The same program with a zero behind the byte. -/
def bootTailed : ByteFile := segmentFile 0x8048000 2 [7]

@[irreducible] def bootLoaded : Kernel := (loadElfFill (some bootProgram) bootStarted).2

@[irreducible] def bootCleared : Kernel := (loadElfFill (some bootTailed) bootStarted).2

theorem boot_loads :
    (loadElfFill (some bootProgram) bootStarted).1.toOption.map Except.toOption =
      some (some 0x8048000) ∧
    (loadElfFill (some bootTailed) bootStarted).1.toOption.map Except.toOption =
      some (some 0x8048000) ∧
    peek bootCleared bootCleared.currentPageDir 0x8048000 = some 0 := by
  decide +kernel

theorem loadElfIn_of_toOption {file : Option ByteFile}
    (h : (loadElfFill file s).1.toOption.map Except.toOption = some (some entry)) :
    loadElfIn file s = (.ok (.ok entry), (loadElfFill file s).2) := by
  rw [loadElfIn_eq_fill]
  obtain ⟨r, hr, hentry⟩ := Option.map_eq_some_iff.mp h
  cases r with
  | ok e =>
      obtain rfl : e = entry := Option.some.inj hentry
      exact Exec.eq_ok_of_toOption hr
  | error e => cases hentry

theorem bootLoaded_run : loadElfIn (some bootProgram) bootStarted =
    (.ok (.ok 0x8048000), bootLoaded) := by
  rw [bootLoaded]
  exact loadElfIn_of_toOption boot_loads.1

theorem bootCleared_run : loadElfIn (some bootTailed) bootStarted =
    (.ok (.ok 0x8048000), bootCleared) := by
  rw [bootCleared]
  exact loadElfIn_of_toOption boot_loads.2.1

theorem bootKernel_bounds : UserBounds bootKernel := ⟨rfl, rfl⟩

theorem bootProgram_pages (ha : a ∈ pages bootProgram) :
    lookup bootStarted bootStarted.currentPageDir a = none := by
  have hbounds := bootKernel_bounds.of_boot bootKernel_booted bootStarted_run .refl
  obtain ⟨hloaded, -⟩ := loadElfIn_ok hbounds.high bootLoaded_run
  obtain ⟨F, hs⟩ := CowRuns.of_boot .refl bootKernel_booted bootStarted_run
  have hlow : bootStarted.userMemLow.toNat = bootLayout.low * 2 ^ 22 := by
    rw [hbounds.low, hs.linked.low]
  exact lookup_started bootKernel_booted bootStarted_run
    ((userPages hlow (fits_of_loaded hloaded)).user a ha)

theorem bootProgram_ascending : Ascending (segments bootProgram) := by
  unfold Ascending
  decide

theorem bootLoaded_image : ImageLoaded bootProgram bootLoaded ↔ WipesZeros bootProgram :=
  loadElf_image_iff bootKernel_booted bootKernel_bounds bootStarted_run .refl
    (fun _ ha p hlook => absurd ((bootProgram_pages ha).symm.trans hlook) (by simp))
    bootProgram_ascending (m := bootStarted.phys) bootLoaded_run

/-- The zero behind the byte clears the byte, too. -/
theorem bootCleared_image :
    loadElfIn (some bootTailed) bootStarted = (.ok (.ok 0x8048000), bootCleared) ∧
      Ascending (segments bootTailed) ∧ ¬ ImageLoaded bootTailed bootCleared := by
  refine ⟨bootCleared_run, by unfold Ascending; decide, fun himage => ?_⟩
  have hheader : headers bootTailed = [⟨1, 84, 0x8048000, 1, 2⟩] := rfl
  have hread := himage ⟨1, 84, 0x8048000, 1, 2⟩ (by rw [hheader]; exact List.mem_cons_self) 0
    (by decide)
  have hbyte : Phdr.imageByte bootTailed.contents ⟨1, 84, 0x8048000, 1, 2⟩ 0 = 7 := by
    decide
  have hshows := hread.shows
  rw [hbyte, BitVec.add_zero, boot_loads.2.2] at hshows
  exact absurd hshows (by decide)

end Jkos.Elf
