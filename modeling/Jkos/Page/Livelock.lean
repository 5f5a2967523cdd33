import Jkos.Page.Ops

/-!
# Faults come to an end

After a fault the processor repeats the access. A page that is not present gets its frame
with the first fault, and is then at most short of the write permission, which a second
fault gives it; everything else makes the kernel panic.
-/

namespace Jkos.Page

open Exec Kheap

variable {g : Layout} {c : Prop} {s s' s₀ s₁ : Kernel} {p : Slot} {F : Multiset Block}
  {addr eip : Word} {write : Bool}

/-- When each fault is handed to `page_fault` and the access is then repeated, it is
permitted or the kernel panics, after at most `n` returns of `page_fault`. -/
inductive Settles (addr : Word) (write : Bool) (eip : Word) : Nat → Kernel → Prop
  | permitted {n : Nat} {s : Kernel} {f : Frame}
      (h : walk s addr write (decide (s.kernelCodeEnd ≤ eip)) = .ok f) : Settles addr write eip n s
  | panic {n : Nat} {s s' : Kernel} {errCode : Word} {e : Fault}
      (h : walk s addr write (decide (s.kernelCodeEnd ≤ eip)) = .error errCode)
      (hpanic : pageFault addr errCode eip s = (.error e, s')) : Settles addr write eip n s
  | retry {n : Nat} {s s' : Kernel} {errCode : Word}
      (h : walk s addr write (decide (s.kernelCodeEnd ≤ eip)) = .error errCode)
      (hreturn : pageFault addr errCode eip s = (.ok (), s'))
      (hnext : Settles addr write eip n s') :
      Settles addr write eip (n + 1) s

/-- A fault whose handler panics or leaves a state in which the access settles. -/
theorem Settles.of_fault {n : Nat} {errCode : Word} {E : Fault → Kernel → Prop}
    (hwalk : walk s addr write (decide (s.kernelCodeEnd ≤ eip)) = .error errCode)
    (h : Ends (pageFault addr errCode eip) s (fun _ s' => Settles addr write eip n s') E) :
    Settles addr write eip (n + 1) s := by
  cases hrun : pageFault addr errCode eip s with
  | mk r s' =>
      cases r with
      | ok _ => exact .retry hwalk hrun (h.ok hrun)
      | error e => exact .panic hwalk hrun

/-- Without a table, and on a page that is not open, a fault is the end. -/
theorem Settles.of_none {n : Nat} (hlook : lookup s s.currentPageDir addr = none) :
    Settles addr write eip n s := by
  have hwalk : walk s addr write (decide (s.kernelCodeEnd ≤ eip)) =
      .error (errCodeOf false write (decide (s.kernelCodeEnd ≤ eip))) := by
    simp only [walk, hlook]
  exact .panic hwalk (pageFault_of_none hlook)

theorem Settles.of_closed {n : Nat} (hlook : lookup s s.currentPageDir addr = some p)
    (h : ¬ Open s p eip) : Settles addr write eip n s := by
  cases hwalk : walk s addr write (decide (s.kernelCodeEnd ≤ eip)) with
  | ok f => exact .permitted hwalk
  | error errCode => exact .panic hwalk (pageFault_of_closed hlook h)

section Editable

variable (hs : Sound g c s) (hlook : lookup s s.currentPageDir addr = some p)
  (hp : Editable g s p)
include hs hlook hp

/-- A page with a frame can only lack the write permission. -/
theorem Settles.of_held (n : Nat) (hheld : (s.page p).addr ≠ 0) :
    Settles addr write eip (n + 1) s := by
  by_cases hopen : Open s p eip
  swap
  · exact .of_closed hlook hopen
  by_cases hgrant : write = true → (s.page p).rw = true ∨ (s.page p).user = true
  · have hwalk : walk s addr write _ = _ := walk_of_held hs hlook hp ⟨hopen, hgrant⟩ hheld
    by_cases hw : write = true ∧ (s.page p).rw = false
    swap
    · rw [if_neg hw] at hwalk
      exact .permitted hwalk
    · rw [if_pos hw] at hwalk
      obtain ⟨rfl, hrw⟩ := hw
      have huser : (s.page p).user = true :=
        (hgrant rfl).resolve_left (by rw [hrw]; decide)
      have href : s.frameRefCnt (s.page p).addr ≠ 0 := by
        obtain ⟨heq, hpos⟩ := hs.frames.ref_eq hp.counted hp.ordinary rfl hheld
        intro e
        rw [e] at heq
        exact absurd (heq.symm ▸ hpos) (by decide)
      refine .of_fault hwalk ((pageFault_write_ends hlook hopen hp (errCodeOf_protection _ _)
        ⟨errCodeOf_write _, huser⟩ hheld href).mono ?_ (fun _ _ h => h))
      rintro - s₁ ⟨hres, hrw₁⟩
      have hwork := hres.work (c := c) (K := {p}) hs.frames rfl hp
      obtain ⟨hheld₁, huser₁, -⟩ := hres.page_self hs.frames hp
      have hp₁ := hwork.steps.editable hp
      have hs₁ := hwork.steps.sound hs
      have hlook₁ : lookup s₁ s₁.currentPageDir addr = some p := by
        rw [hwork.lookup_eq, hwork.current_eq, hlook]
      have hwalk₁ : walk s₁ addr true (decide (s₁.kernelCodeEnd ≤ eip)) = _ :=
        walk_of_held hs₁ hlook₁ hp₁ ⟨⟨(hs₁.shaped p hp₁).2 hheld₁, .inl (huser₁.trans huser)⟩,
          fun _ => .inl hrw₁⟩ hheld₁
      rw [if_neg (by rw [hrw₁]; simp)] at hwalk₁
      exact .permitted hwalk₁
  · -- the kernel writes to a page of its own that is not writable
    rw [Classical.not_imp, not_or, Bool.not_eq_true, Bool.not_eq_true] at hgrant
    obtain ⟨rfl, hrw, huser⟩ := hgrant
    have hpresent : (s.page p).present = true := (hs.shaped p hp).1.mpr hheld
    have hwalk : walk s addr true (decide (s.kernelCodeEnd ≤ eip)) =
        .error (errCodeOf true true (decide (s.kernelCodeEnd ≤ eip))) := by
      simp [walk, hlook, hpresent, hrw]
    refine .panic hwalk (pageFault_of_reject hlook hopen (errCodeOf_protection _ _) ?_)
    rw [huser]
    simp

/-- The first fault on a page gives it a frame. -/
theorem Settles.of_editable (n : Nat) : Settles addr write eip (n + 2) s := by
  by_cases hheld : (s.page p).addr = 0
  swap
  · exact .of_held hs hlook hp (n + 1) hheld
  by_cases hopen : Open s p eip
  swap
  · exact .of_closed hlook hopen
  have hpresent : (s.page p).present = false := by
    rw [Bool.eq_false_iff]
    exact fun e => (hs.shaped p hp).1.mp e hheld
  have hwalk : walk s addr write (decide (s.kernelCodeEnd ≤ eip)) =
      .error (errCodeOf false write (decide (s.kernelCodeEnd ≤ eip))) := by
    simp only [walk, hlook, hpresent, if_true]
  refine .of_fault hwalk ((pageFault_lazy_ends hlook hopen (errCodeOf_absent _ _) hheld).mono ?_
    (fun _ _ h => h))
  rintro - s₁ hres
  have hwork := hres.work (c := c) (K := {p}) hs.frames rfl hp
  have hlook₁ : lookup s₁ s₁.currentPageDir addr = some p := by
    rw [hwork.lookup_eq, hwork.current_eq, hlook]
  exact .of_held (hwork.steps.sound hs) hlook₁ (hwork.steps.editable hp) n
    (hres.page_self hs.frames hp).1

end Editable

/-- In every running state an access settles after at most two faults. -/
theorem Running.settles (h : Running g c F s) (hscratch : ¬ ScratchPage s addr) (write : Bool)
    (eip : Word) (n : Nat) : Settles addr write eip (n + 2) s := by
  cases hlook : lookup s s.currentPageDir addr with
  | none => exact .of_none hlook
  | some p =>
      have hcounted := h.linked.counted h.linked.current hlook hscratch
      by_cases hid : p ∈ g.identity
      · refine .of_closed hlook fun hopen => ?_
        have hclosed := (h.sound.frames.identity p hid).2.2
        exact absurd (hopen.1.symm.trans hclosed) (by decide)
      · exact .of_editable h.sound hlook ⟨hcounted, hid⟩ n

theorem access_settles (hboot : Booted g s₀) (hinit : initEmptyPages s₀ = (.ok (), s₁))
    (hrun : PageRuns s₁ s) (hscratch : ¬ ScratchPage s addr) (write : Bool) (eip : Word) :
    Settles addr write eip 2 s := by
  obtain ⟨F, hs⟩ := hrun.of_boot hboot hinit
  exact hs.settles hscratch write eip 0

theorem boot_settles : Settles 0xEFC10000 true 0 2 bootMapped := by
  have hrun : PageRuns bootStarted bootMapped := .single ⟨_, bootMapped_step⟩
  have hplain : PlainPage bootMapped 0xEFC10000 := bootMapped_facts.2.2.1
  exact access_settles bootKernel_booted bootStarted_run hrun hplain.1.2 true 0

end Jkos.Page
