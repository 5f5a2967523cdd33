import Jkos.Page.Release
import Jkos.Page.Spaces

/-!
# Shared frames

Clones share frames until one of them writes, so a frame with more than one holder must not
be writable, and no call on one directory may change what a frame of another one holds. The
functions on page tables keep this up, except where `alloc` or `lazy_alloc` is applied to a
page that shares its frame: they set its `rw` bit, or clear the frame, without a look at the
reference count.
-/

namespace Jkos.Page

open Exec Kheap

variable {g : Layout} {F : Multiset Block} {s s' s₀ s₁ : Kernel} {op : PageOp}

/-- A user page that can be written has its frame alone. -/
def WritableAlone (s : Kernel) : Prop :=
  ∀ d ∈ s.dirs, ∀ a, UserAddr s a → ∀ p, lookup s d a = some p → (s.page p).rw = true →
    (s.page p).addr ≠ 0 → s.frameRefCnt (s.page p).addr = 1

/-- The call changes no frame that a user page of another directory has. -/
def PageOp.SparesOthers (op : PageOp) (s s' : Kernel) : Prop :=
  ∀ d ∈ s.dirs, d ≠ op.dir s → ∀ a, UserAddr s a → ∀ p, lookup s d a = some p →
    (s.page p).addr ≠ 0 → s'.phys (s.page p).addr = s.phys (s.page p).addr

/-- Shared frames are safe: they are not writable, and calls that respect them as well as
all others leave the frames of the other directories alone. -/
structure CowSafe (s : Kernel) : Prop where
  alone : WritableAlone s
  spares : ∀ op s', PageStep op s s' → op.Respects s → op.SparesOthers s s'

/-- Any number of calls that respect shared frames. -/
abbrev CowRuns : Kernel → Kernel → Prop :=
  Relation.ReflTransGen fun s s' => ∃ op, PageStep op s s' ∧ op.Respects s

theorem CowRuns.pageRuns (h : CowRuns s s') : PageRuns s s' :=
  Relation.ReflTransGen.mono (fun _ _ ⟨op, hstep, _⟩ => ⟨op, hstep⟩) _ _ h

theorem CowRuns.running (h : CowRuns s s') (hs : Running g True F s) :
    ∃ F', Running g True F' s' := by
  induction h with
  | refl => exact ⟨F, hs⟩
  | tail _ hstep ih =>
      obtain ⟨op, hstep, hrespects⟩ := hstep
      obtain ⟨F', hs'⟩ := ih
      exact hstep.running hs' fun _ => hrespects

theorem CowRuns.of_boot (hrun : CowRuns s₁ s) (hboot : Booted g s₀)
    (hinit : initEmptyPages s₀ = (.ok (), s₁)) : ∃ F, Running g True F s := by
  obtain ⟨F₁, hs₁⟩ := ((initEmptyPages_ends hboot).ok hinit).1.running
  exact hrun.running hs₁

theorem Linked.user_iff (h : Linked g s) (a : Word) : UserAddr s a ↔ g.User (tbIdx a) := by
  rw [UserAddr, h.low, Layout.User]

theorem Running.writableAlone (hs : Running g True F s) : WritableAlone s := by
  intro d hd a ha p hlook hrw hheld
  rw [hs.linked.user_iff] at ha
  have hp := (hs.linked.ownPage hd ha hlook).editable hs.linked
  exact hs.sound.exclusive trivial p hp hheld (.inl hrw)

/-- A page of another directory is outside the footprint of the call. -/
theorem PageStep.sparesOthers (h : PageStep op s s') (hs : Running g True F s)
    (hrespects : op.Respects s) : op.SparesOthers s s' := by
  intro d hd hne a ha p hlook hheld
  rw [hs.linked.user_iff] at ha
  have hp := (hs.linked.ownPage hd ha hlook).editable hs.linked
  obtain ⟨F', hacted⟩ | ⟨d', hd', -, rfl⟩ := h.acted hs fun _ => hrespects
  · have hforeign : p ∈ foreign g s (op.dir s) := by
      obtain ⟨-, rfl, hnull⟩ := hs.linked.lookup_mem hd hlook
      exact ⟨d, hd, hne, tbIdx a, ha.not_shared, rfl, hnull⟩
    exact hacted.steps.phys_kept trivial hs.sound hp fun hout => hout hforeign
  · rfl

theorem Running.cowSafe (hs : Running g True F s) : CowSafe s :=
  ⟨hs.writableAlone, fun _ _ hstep hrespects => hstep.sparesOthers hs hrespects⟩

theorem shared_safe (hboot : Booted g s₀) (hinit : initEmptyPages s₀ = (.ok (), s₁))
    (hrun : CowRuns s₁ s) : CowSafe s := by
  obtain ⟨F, hs⟩ := hrun.of_boot hboot hinit
  exact hs.cowSafe

/-! ## A clone and its parent -/

theorem boot_plain : PlainPage bootStarted 0xEF800000 ∧ PlainPage bootForked 0xEF800000 := by
  unfold PlainPage OrdinaryPage IdentityPage ScratchPage HoldsTable
  decide +kernel

theorem bootUser_step : PageStep (.alloc 0x2E0000 0xEF800000 true true) bootStarted bootUser := by
  refine ⟨⟨by rw [bootStarted_dirs]; decide, boot_plain.1⟩, ?_⟩
  rw [PageOp.exec, bind_ok bootTabled_run, bootUser_run]

theorem bootUser_respects : (PageOp.alloc 0x2E0000 0xEF800000 true true).Respects bootStarted := by
  intro _ p hlook
  obtain ⟨h, -⟩ := bootKernel_booted.spaces bootStarted_run
  have hsingle : bootStarted.dirs = [bootStarted.currentPageDir] := by
    rw [bootStarted_dirs, bootStarted_current]
  rw [← bootStarted_current] at hlook
  exact h.unshared hsingle _ bootUser_user.1 p hlook

theorem bootForked_runs : CowRuns bootStarted bootForked := by
  have hclone : PageStep (.clone 0x2E0000) bootUser bootForked := by
    refine ⟨bootUser_mem, ?_⟩
    rw [PageOp.exec, bind_ok bootForked_run]
    rfl
  exact (Relation.ReflTransGen.single ⟨_, bootUser_step, bootUser_respects⟩).tail
    ⟨_, hclone, trivial⟩

theorem bootForked_safe : CowSafe bootForked :=
  shared_safe bootKernel_booted bootStarted_run bootForked_runs

/-- The page of the parent is allocated again. -/
@[irreducible] def bootReopened : Kernel :=
  bootForked.setEntry ⟨0xEFC04000, 0⟩ ({ · with rw := true, user := true })

theorem bootReopened_step :
    PageStep (.alloc 0x2E0000 0xEF800000 true true) bootForked bootReopened := by
  obtain ⟨-, -, -, -, -, -, hlook, hheld, -⟩ := boot_runs
  refine ⟨⟨?_, boot_plain.2⟩, ?_⟩
  · rw [bootForked_spaces.2]
    decide
  · rw [PageOp.exec, bind_ok (getPageWith_of_lookup hlook), alloc_of_held hheld, bootReopened]

/-- `alloc` makes a shared frame writable. -/
theorem bootReopened_writable : PageRuns bootStarted bootReopened ∧
    ¬ WritableAlone bootReopened := by
  obtain ⟨-, -, -, -, -, -, hlook, hheld, htwo, -⟩ := boot_runs
  refine ⟨bootForked_runs.pageRuns.tail ⟨_, bootReopened_step⟩, fun halone => ?_⟩
  have hpage : bootReopened.page ⟨0xEFC04000, 0⟩ =
      { bootForked.page ⟨0xEFC04000, 0⟩ with rw := true, user := true } := by
    rw [bootReopened]
    exact Kernel.page_setEntry_self _ _ _
  have hone := halone 0x2E0000 (by rw [bootReopened]; exact bootForked_spaces.2 ▸ by decide)
    0xEF800000 ?_ ⟨0xEFC04000, 0⟩ (by rw [bootReopened]; exact hlook) (by rw [hpage])
    (by rw [hpage]; exact hheld)
  · rw [hpage, bootReopened] at hone
    exact absurd (hone.symm.trans htwo) (by decide)
  · rw [bootReopened]
    exact (bootForked_spaces.1.userAddr_iff _).mpr bootUser_user.1

end Jkos.Page
