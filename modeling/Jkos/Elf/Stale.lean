import Jkos.Elf.Image

/-!
# What a program sees of the past

`alloc` does not clear the frame that it takes, so a page that is allocated at once shows
what its frame held before, except where the file or zeros are written to it. Two runs of
the loader that differ in the contents of the free frames show whether that is so anywhere.
-/

namespace Jkos.Elf

open Exec (Oblivious)
open Page Fs

variable {g : Layout} {s s' s₀ s₁ : Kernel} {low high entry b : Word} {file : ByteFile}

/-- Whether the loader succeeds, and what it does to the page tables, does not depend on what
memory holds. -/
theorem Call.exec_oblivious (c : Call) : Oblivious (Twin low high) c.exec := by
  cases c with
  | allocInterval start stop =>
      exact Exec.oblivious_bind (twin_read fun _ _ _ _ => rfl) fun d =>
        allocIntervalWith_oblivious kmalloc_oblivious d start stop true true
  | alloc addr =>
      exact Exec.oblivious_bind (twin_read fun _ _ _ _ => rfl) fun d =>
        Exec.oblivious_bind (getPage_oblivious d addr) fun p => alloc_oblivious p true true
  | fileRead dest bytes => exact store_oblivious dest bytes
  | memset dest cnt => exact memset_oblivious dest 0 cnt.toNat
  | lazyAllocInterval start stop =>
      exact Exec.oblivious_bind (twin_read fun _ _ _ _ => rfl) fun d =>
        lazyAllocIntervalWith_oblivious kmalloc_oblivious d start stop true true true

theorem execCalls_oblivious (cs : List Call) : Oblivious (Twin low high) (execCalls cs) := by
  induction cs with
  | nil => exact Exec.oblivious_pure _
  | cons c cs ih => exact Exec.oblivious_bind c.exec_oblivious fun _ => ih

/-- The loader succeeds with any contents of memory if it does with one. -/
theorem loadElfIn_phys {file : Option ByteFile} {r : Except Word Word}
    (hload : loadElfIn file s = (.ok r, s')) (m : Frame → BitVec 12 → Byte) :
    ∃ s'', loadElfIn file { s with phys := m } = (.ok r, s'') := by
  obtain ⟨u, t, hexec, hpure⟩ := Exec.bind_eq_ok (x := execCalls _) hload
  obtain ⟨hresult, -⟩ := Prod.mk.inj hpure
  obtain ⟨t', hexec', -⟩ := (execCalls_oblivious _).ok (.phys s m) hexec
  refine ⟨t', ?_⟩
  rw [loadElfIn, Exec.bind_ok (Exec.read_apply _ _), Exec.bind_ok (Exec.read_apply _ _),
    Exec.bind_ok hexec', ← hresult]
  rfl

/-- The pages of the segments have no frames. -/
def Bare (file : ByteFile) (s : Kernel) : Prop :=
  ∀ a ∈ pages file, ∀ p, lookup s s.currentPageDir a = some p → (s.page p).addr = 0

/-- Two loads of a file that begin with different contents of the free frames show the same
bytes in the pages of the segments. -/
def SeesNoPast (file : ByteFile) (s : Kernel) : Prop :=
  ∀ m m' entry entry' s' s'', (∀ f ∉ s.frames, m f = m' f) →
    loadElfIn (some file) { s with phys := m } = (.ok (.ok entry), s') →
    loadElfIn (some file) { s with phys := m' } = (.ok (.ok entry'), s'') →
    ∀ b ∈ pages file, ∃ v, Reads s' b v ∧ Reads s'' b v

section Bare

variable {F : Multiset Kheap.Block} (hs : Running g True F s) (hbounds : UserBounds s)
  (hbare : Bare file s)
include hs hbounds hbare

/-- A run of the loader, followed from pages without frames. -/
theorem loadElfIn_bare {m : Frame → BitVec 12 → Byte}
    (hload : loadElfIn (some file) { s with phys := m } = (.ok (.ok entry), s')) :
    (∀ x ∈ segments file, x.Fits s.userMemLow) ∧ UserPages g (pages file) ∧
      Follows g (pages file) { s with phys := m }
        (fun b => effects ((segments file).flatMap Segment.calls) b ⟨some false, .unknown⟩) s' := by
  have hun : ∀ a ∈ pages file, PageUnshared s s.currentPageDir a :=
    fun a ha p hlook => .inl (hbare a ha p hlook)
  have hdesc : ∀ a ∈ pages file, (⟨some false, .unknown⟩ : Content).Describes
      { s with phys := m } { s with phys := m } a :=
    fun a ha => ⟨fun h => absurd h (by simp), fun _ p hlook => hbare a ha p hlook, trivial⟩
  obtain ⟨hloaded, hU, hfollows⟩ := loadElfIn_follows hs hbounds hun hdesc hload
  exact ⟨fits_of_loaded hloaded, hU, hfollows⟩

/-- Every byte is settled by the file if no segment leaves one open. -/
theorem seesNoPast_of_no_leaks (hleaks : ∀ b, ¬ Leaks (segments file) b) : SeesNoPast file s := by
  intro m m' entry entry' s' s'' _ hload hload' b hb
  obtain ⟨hfits, hU, hfollows⟩ := loadElfIn_bare hs hbounds hbare hload
  obtain ⟨-, -, hfollows'⟩ := loadElfIn_bare hs hbounds hbare hload'
  obtain ⟨v, hv⟩ := (byte_of_bare hfits hb).2 (hleaks b)
  exact ⟨v, hfollows.reads hU hb hv, hfollows'.reads hU hb hv⟩

/-- The contents of the free frames, all bytes of which are `v`. -/
def filled (s : Kernel) (v : Byte) : Frame → BitVec 12 → Byte :=
  fun f => if f ∈ s.frames then fun _ => v else s.phys f

/-- A byte that leaks is a byte of a frame that was free. -/
theorem peek_of_leaks {v : Byte} (hleaks : Leaks (segments file) b) (hb : b ∈ pages file)
    (hload : loadElfIn (some file) { s with phys := filled s v } = (.ok (.ok entry), s')) :
    peek s' s'.currentPageDir b = some v := by
  obtain ⟨hfits, hU, hfollows⟩ := loadElfIn_bare hs hbounds hbare hload
  have hshown := (hfollows.describes b hb).shown
  rw [(byte_of_bare hfits hb).1 hleaks] at hshown
  obtain ⟨-, f, hf, hpeek⟩ := hshown
  have hmem : f ∈ s.frames := hf
  rw [hpeek]
  exact congrArg some (congrFun (if_pos hmem) _)

theorem not_seesNoPast_of_leaks (hleaks : Leaks (segments file) b)
    (hload : loadElfIn (some file) s = (.ok (.ok entry), s')) : ¬ SeesNoPast file s := by
  intro hno
  obtain ⟨t₀, hload₀⟩ := loadElfIn_phys hload (filled s 0)
  obtain ⟨t₁, hload₁⟩ := loadElfIn_phys hload (filled s 1)
  obtain ⟨hfits, -⟩ := loadElfIn_bare hs hbounds hbare hload₀
  have hb : b ∈ pages file := by
    obtain ⟨x, hx, hgrabs⟩ := grabs_of_leaks hleaks
    exact ⟨x, hx, (hfits x hx).onPage_of_grabs hgrabs⟩
  have hsame : ∀ f ∉ s.frames, filled s 0 f = filled s 1 f := fun f hf => by
    rw [filled, filled, if_neg hf, if_neg hf]
  obtain ⟨v, hv₀, hv₁⟩ := hno _ _ _ _ _ _ hsame hload₀ hload₁ b hb
  have h₀ := hv₀.shows.symm.trans (peek_of_leaks hs hbounds hbare hleaks hb hload₀)
  have h₁ := hv₁.shows.symm.trans (peek_of_leaks hs hbounds hbare hleaks hb hload₁)
  exact absurd (h₀.symm.trans h₁) (by decide)

end Bare

/-- Where a program can be loaded at all, it sees nothing of the past exactly if every byte of
every page that is allocated at once is read from the file or cleared. -/
theorem loadElf_seesNoPast_iff (hboot : Booted g s₀) (hbounds : UserBounds s₀)
    (hinit : initEmptyPages s₀ = (.ok (), s₁)) (hrun : CowRuns s₁ s) (hbare : Bare file s)
    (hload : loadElfIn (some file) s = (.ok (.ok entry), s')) :
    SeesNoPast file s ↔ ∀ b, ¬ Leaks (segments file) b := by
  obtain ⟨F, hs⟩ := hrun.of_boot hboot hinit
  have hbounds' := hbounds.of_boot hboot hinit hrun.pageRuns
  exact ⟨fun hno b hleaks => not_seesNoPast_of_leaks hs hbounds' hbare hleaks hload hno,
    seesNoPast_of_no_leaks hs hbounds' hbare⟩

theorem bootProgram_bare : Bare bootProgram bootStarted :=
  fun _ ha _ hlook => absurd ((bootProgram_pages ha).symm.trans hlook) (by simp)

theorem bootProgram_seesNoPast :
    SeesNoPast bootProgram bootStarted ↔ ∀ b, ¬ Leaks (segments bootProgram) b :=
  loadElf_seesNoPast_iff bootKernel_booted bootKernel_bounds bootStarted_run .refl bootProgram_bare
    bootLoaded_run

/-- The program of one byte sees what the rest of its page held before. -/
theorem bootProgram_seesPast :
    (∃ s', loadElfIn (some bootProgram) bootStarted = (.ok (.ok 0x8048000), s')) ∧
      Bare bootProgram bootStarted ∧ ¬ SeesNoPast bootProgram bootStarted := by
  obtain ⟨F, hs⟩ := CowRuns.of_boot .refl bootKernel_booted bootStarted_run
  have hbounds := bootKernel_bounds.of_boot bootKernel_booted bootStarted_run .refl
  have hleaks : Leaks (segments bootProgram) 0x8048001 := by
    have hsegs : segments bootProgram = [⟨0x8048000, 1, [7]⟩] := rfl
    rw [hsegs, Leaks, if_pos (by decide)]
    simp only [List.mem_singleton, forall_eq]
    decide
  exact ⟨⟨_, bootLoaded_run⟩, bootProgram_bare,
    not_seesNoPast_of_leaks hs hbounds bootProgram_bare hleaks bootLoaded_run⟩

end Jkos.Elf
