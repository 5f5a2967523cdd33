import Jkos.Page.Shared

/-!
# Write protection

A page that is set up without write permission has its `rw` bit clear, and so has a page
that is shared for copy-on-write. The fault handler cannot tell them apart: a write to a
protected page that has a frame sets the bit, in place or in a copy. Nothing else does it,
whatever clones, switches and faults there are.
-/

namespace Jkos.Page

open Exec Kheap

variable {g : Layout} {c : Prop} {F : Multiset Block} {s s' s₀ s₁ s₂ : Kernel} {op : PageOp}
  {p : Slot} {d a addr eip : Word} {write : Bool}

/-- A state, with the directory in which a page was protected and all clones that come from
it. -/
structure Family where
  kernel : Kernel
  dirs : List Word

/-- Clones, switches, and accesses with the handling of their faults. -/
inductive FamilyStep : PageOp → Family → Family → Prop
  | clone {s s' : Kernel} {dirs : List Word} {src dest : Word} (hsrc : src ∈ s.dirs)
      (hrun : cloneDirectory src s = (.ok dest, s')) :
      FamilyStep (.clone src) ⟨s, dirs⟩ ⟨s', if src ∈ dirs then dest :: dirs else dirs⟩
  | enable {s : Kernel} {dirs : List Word} {d : Word} (hd : d ∈ s.dirs) :
      FamilyStep (.enable d) ⟨s, dirs⟩ ⟨(enable d s).2, dirs⟩
  | access {s s' : Kernel} {dirs : List Word} {addr eip : Word} {write : Bool}
      (hstep : PageStep (.access addr write eip) s s') :
      FamilyStep (.access addr write eip) ⟨s, dirs⟩ ⟨s', dirs⟩

/-- Any number of steps. The history has the latest one first, each with the state that it
began in. -/
inductive FamilyRun (t₀ : Family) : List (Family × PageOp) → Family → Prop
  | refl : FamilyRun t₀ [] t₀
  | tail {l : List (Family × PageOp)} {t t' : Family} {op : PageOp} (h : FamilyRun t₀ l t)
      (hstep : FamilyStep op t t') : FamilyRun t₀ ((t, op) :: l) t'

/-- The page is protected in all directories of the family. -/
def WriteGuarded (a : Word) (t : Family) : Prop :=
  ∀ d ∈ t.dirs, ∃ p, lookup t.kernel d a = some p ∧ (t.kernel.page p).rw = false

/-- The step is a write to the page, which has a frame. -/
def WritesTo (a : Word) (t : Family) : PageOp → Prop
  | .access addr write _ => write = true ∧ pageOf addr = pageOf a ∧
      t.kernel.currentPageDir ∈ t.dirs ∧
      ∃ p, lookup t.kernel t.kernel.currentPageDir a = some p ∧ (t.kernel.page p).addr ≠ 0
  | _ => False

/-- A page has been set up for the user, without write permission. -/
inductive SetUp (d a : Word) (s s' : Kernel) : Prop
  | alloc (hstep : PageStep (.alloc d a true false) s s')
  | lazyAlloc {fillZero : Bool} (hstep : PageStep (.lazyAlloc d a true false fillZero) s s')

/-! ## The invariant -/

/-- The entry of a protected page. -/
def Sealed (s : Kernel) (d a : Word) : Prop :=
  ∃ p, lookup s d a = some p ∧ (s.page p).user = true ∧ (s.page p).rw = false

variable (g) in
structure FamilyInv (a : Word) (t : Family) : Prop where
  running : ∃ F, Running g False F t.kernel
  user : g.User (tbIdx a)
  subset : t.dirs ⊆ t.kernel.dirs
  isSealed : ∀ d ∈ t.dirs, Sealed t.kernel d a

theorem FamilyInv.guarded {t : Family} (h : FamilyInv g a t) : WriteGuarded a t := by
  intro d hd
  obtain ⟨p, hlook, -, hrw⟩ := h.isSealed d hd
  exact ⟨p, hlook, hrw⟩

theorem Sealed.weaker {p' : Slot} {d' : Word} (hlook' : lookup s' d' a = some p')
    (hlook : lookup s d a = some p) (h : Sealed s d a)
    (hw : Weaker (s.page p) (s'.page p')) : Sealed s' d' a := by
  obtain ⟨q, hq, huser, hrw⟩ := h
  obtain rfl := Option.some.inj (hq.symm.trans hlook)
  exact ⟨p', hlook', hw.user.trans huser, hw.rw_false hrw⟩

theorem lazyAlloc_flags (hp : Editable g s p) (user writable fillZero : Bool) :
    ((lazyAlloc p user writable fillZero s).2.page p).user = user ∧
      ((lazyAlloc p user writable fillZero s).2.page p).rw = writable := by
  by_cases hzero : (s.page p).addr = 0
  · rw [lazyAlloc_of_zero hzero, Kernel.page_setEntry_self]
    exact ⟨rfl, rfl⟩
  · cases fillZero with
    | true =>
        have hp' : Editable g (s.setEntry p ({ · with rw := writable, user := user })) p :=
          ⟨hp.counted, hp.ordinary⟩
        rw [lazyAlloc_of_held hzero, page_fillUint32 hp', Kernel.page_setEntry_self]
        exact ⟨rfl, rfl⟩
    | false =>
        simp only [lazyAlloc, bind_apply, modify_apply, read_apply, Kernel.page_setEntry_self,
          if_neg hzero, Bool.false_eq_true, if_false, pure_apply, and_self]

/-- A function on the page of an address that leaves it protected. -/
theorem sealed_of_page {act : Slot → Prog Unit} (hs : Running g False F s) (hd : d ∈ s.dirs)
    (ha : g.User (tbIdx a))
    (hrun : (do let p ← getPageWith kmalloc d a
                act p) s = (.ok (), s'))
    (hact : ∀ t p, Sound g False t → Editable g t p → act p t = (.ok (), s') →
      Work g False {p} t s' ∧ (s'.page p).user = true ∧ (s'.page p).rw = false) :
    d ∈ s'.dirs ∧ Sealed s' d a := by
  obtain ⟨p, t, hget, hrun⟩ := bind_eq_ok hrun
  obtain ⟨F', hacted, hlook, -⟩ := (getPageWith_acted hs hd a).ok hget
  have hl := hacted.running.linked
  have hd' := hacted.dirs hd
  have hp := (hl.ownPage hd' ha hlook).editable hl
  obtain ⟨hw, huser, hrw⟩ := hact t p hacted.running.sound hp hrun
  refine ⟨hw.dirs_eq ▸ hd', p, ?_, huser, hrw⟩
  rw [hw.lookup_eq, hlook]

/-- What has been set up without write permission is protected. -/
theorem SetUp.inv (h : SetUp d a s s') (hs : Running g False F s) (ha : g.User (tbIdx a)) :
    FamilyInv g a ⟨s', [d]⟩ := by
  have hsealed : (∃ F', Running g False F' s') ∧ d ∈ s'.dirs ∧ Sealed s' d a := by
    cases h with
    | alloc hstep =>
        refine ⟨hstep.running hs False.elim, sealed_of_page hs hstep.legal.1 ha hstep.run
          fun t p ht hp hrun => ?_⟩
        obtain ⟨hw, -⟩ := (alloc_acts true false t p ht hp False.elim).ok hrun
        obtain ⟨-, hrw, huser, -⟩ := ((alloc_ends t p true false).ok hrun).page_self ht.frames
        exact ⟨hw, huser, hrw⟩
    | @lazyAlloc fillZero hstep =>
        refine ⟨hstep.running hs False.elim, sealed_of_page hs hstep.legal.1 ha hstep.run
          fun t p ht hp hrun => ?_⟩
        obtain ⟨hw, -⟩ := (lazyAlloc_acts true false fillZero t p ht hp False.elim).ok hrun
        have hflags := lazyAlloc_flags hp true false fillZero
        rw [hrun] at hflags
        exact ⟨hw, hflags⟩
  obtain ⟨hrunning, hd, hsealed⟩ := hsealed
  refine ⟨hrunning, ha, ?_, ?_⟩
  · rintro d' hd'
    rwa [List.mem_singleton.mp hd']
  · rintro d' hd'
    rw [List.mem_singleton] at hd'
    rwa [hd']

/-! ## Steps -/

section Access

variable {t : Family} (h : FamilyInv g a t)
include h

/-- The entry of another page, or of a protected page that has no frame yet, keeps its
permissions. -/
theorem FamilyInv.access (hstep : PageStep (.access addr write eip) t.kernel s')
    (hnot : ¬ WritesTo a t (.access addr write eip)) : FamilyInv g a ⟨s', t.dirs⟩ := by
  obtain ⟨F, hs⟩ := h.running
  obtain ⟨rfl, -⟩ | ⟨p, hlook, hp, hres, errCode, hwalk⟩ := access_cases hs hstep.run
  · exact h
  have hw := hres.work (g := g) (c := False) (K := {p}) hs.sound.frames rfl hp
  refine ⟨hstep.running hs False.elim, h.user, by rw [hw.dirs_eq]; exact h.subset,
    fun d hd => ?_⟩
  obtain ⟨q, hq, huser, hrw⟩ := h.isSealed d hd
  have hd' := h.subset hd
  have hedit := (hs.linked.ownPage hd' h.user hq).editable hs.linked
  refine ⟨q, by rw [hw.lookup_eq, hq], ?_⟩
  rcases eq_or_ne q p with rfl | hne
  · obtain ⟨rfl, hpage⟩ := hs.linked.eq_of_own hd' hs.linked.current h.user hq hlook
    have hnone : (t.kernel.page q).addr = 0 := by
      by_contra hheld
      have hpresent := (hs.sound.shaped q hp).1.mpr hheld
      have hwrite : write = true := by
        by_contra hread
        simp [walk, hlook, hpresent, huser, hread] at hwalk
      exact hnot ⟨hwrite, hpage.symm, hd, q, hq, hheld⟩
    cases hres with
    | lazy zero top =>
        rw [page_faultIn hp]
        exact ⟨huser, hrw⟩
    | upgrade user held one => exact absurd hnone held
    | copy user held many top => exact absurd hnone held
  · rw [hres.page_other hedit hne]
    exact ⟨huser, hrw⟩

/-- A write to a protected page that has a frame ends the protection. -/
theorem FamilyInv.written (hstep : PageStep (.access addr write eip) t.kernel s')
    (hwrites : WritesTo a t (.access addr write eip)) : ¬ WriteGuarded a ⟨s', t.dirs⟩ := by
  obtain ⟨F, hs⟩ := h.running
  obtain ⟨rfl, hpage, hd, q, hq, hheld⟩ := hwrites
  obtain ⟨q', hq', huser, hrw⟩ := h.isSealed _ hd
  obtain rfl := Option.some.inj (hq.symm.trans hq')
  obtain ⟨hidx, hoff⟩ := idx_eq_of_pageOf hpage
  have hlook' : lookup t.kernel t.kernel.currentPageDir addr = some q := by
    rw [← hq, lookup, lookup, hidx, hoff]
  have hedit := (hs.linked.ownPage hs.linked.current h.user hq).editable hs.linked
  intro hguarded
  obtain ⟨-, f, hwalk⟩ | ⟨p, hlook, hp, hres, -⟩ := access_cases hs hstep.run
  · have hpresent := (hs.sound.shaped q hedit).1.mpr hheld
    simp [walk, hlook', hpresent, hrw] at hwalk
  · obtain rfl := Option.some.inj (hlook'.symm.trans hlook)
    have hw := hres.work (g := g) (c := False) (K := {q}) hs.sound.frames rfl hp
    obtain ⟨q', hlook', hrw'⟩ := hguarded _ hd
    rw [hw.lookup_eq, hq] at hlook'
    obtain rfl := Option.some.inj hlook'
    cases hres with
    | lazy zero top => exact hheld zero
    | upgrade user held one =>
        rw [Kernel.page_setEntry_self] at hrw'
        cases hrw'
    | copy user held many top =>
        rw [page_copied hp] at hrw'
        cases hrw'

end Access

theorem FamilyStep.inv {t t' : Family} (hstep : FamilyStep op t t') (h : FamilyInv g a t)
    (hnot : ¬ WritesTo a t op) : FamilyInv g a t' := by
  cases hstep with
  | @clone s s' dirs src dest hsrc hrun =>
      obtain ⟨F, hs⟩ := h.running
      obtain ⟨F', hc⟩ := (cloneDirectory_ends hs hsrc).ok hrun
      have hold : ∀ d ∈ dirs, d ∈ s'.dirs ∧ Sealed s' d a := fun d hd => by
        have hd' := h.subset hd
        obtain ⟨p, hlook, -⟩ := id (h.isSealed d hd)
        have hown := hs.linked.ownPage hd' h.user hlook
        have hsame : lookup s' d a = some p := by
          rw [← hlook, lookup, lookup, hc.others d fun e => hc.fresh (e ▸ hd')]
        have hkept := hc.grown.steps.kept (hown.editable hs.linked) hown.notMem_fresh
        refine ⟨?_, (h.isSealed d hd).weaker hsame hlook hkept.weaker⟩
        rw [hc.dirs]
        exact List.mem_cons_of_mem _ hd'
      have hnew : src ∈ dirs → dest ∈ s'.dirs ∧ Sealed s' dest a := fun hmem => by
        refine ⟨by rw [hc.dirs]; exact List.mem_cons_self, ?_⟩
        obtain ⟨q, hq, -⟩ := id (h.isSealed src hmem)
        obtain ⟨hnone, -⟩ | ⟨p, p', hlook, hlook', hweak⟩ := hc.lookup_cases h.user
        · exact absurd (hq.symm.trans hnone) (by simp)
        · exact (h.isSealed src hmem).weaker hlook' hlook hweak
      have hall : ∀ d ∈ (if src ∈ dirs then dest :: dirs else dirs),
          d ∈ s'.dirs ∧ Sealed s' d a := by
        intro d hd
        split at hd
        · next hmem =>
            obtain rfl | hd := List.mem_cons.mp hd
            · exact hnew hmem
            · exact hold d hd
        · exact hold d hd
      exact ⟨⟨F', hc.grown.running hs⟩, h.user, fun d hd => (hall d hd).1, fun d hd => (hall d hd).2⟩
  | @enable s dirs d hd =>
      obtain ⟨F, hs⟩ := h.running
      exact ⟨⟨F, hs.enable hd⟩, h.user, h.subset, h.isSealed⟩
  | access hstep => exact h.access hstep hnot

theorem FamilyStep.not_guarded {t t' : Family} (hstep : FamilyStep op t t')
    (h : FamilyInv g a t) (hwrites : WritesTo a t op) : ¬ WriteGuarded a t' := by
  cases hstep with
  | clone hsrc hrun => exact hwrites.elim
  | enable hd => exact hwrites.elim
  | access hstep => exact h.written hstep hwrites

/-! ## Runs -/

/-- As long as nobody writes, the protection lasts. -/
theorem FamilyRun.inv {t₀ t : Family} {l : List (Family × PageOp)} (hrun : FamilyRun t₀ l t)
    (h : FamilyInv g a t₀) (hnot : ∀ x ∈ l, ¬ WritesTo a x.1 x.2) :
    FamilyInv g a t ∧ ∀ x ∈ l, FamilyInv g a x.1 := by
  induction hrun with
  | refl => exact ⟨h, fun _ hx => absurd hx List.not_mem_nil⟩
  | tail hrun hstep ih =>
      rw [List.forall_mem_cons] at hnot
      obtain ⟨ht, hall⟩ := ih hnot.2
      exact ⟨hstep.inv ht hnot.1, List.forall_mem_cons.mpr ⟨ht, hall⟩⟩

/-- A page is protected throughout a run: in the end and when each step began. -/
def StaysGuarded (a : Word) (l : List (Family × PageOp)) (t : Family) : Prop :=
  WriteGuarded a t ∧ ∀ x ∈ l, WriteGuarded a x.1

theorem FamilyRun.staysGuarded_iff {t₀ t : Family} {l : List (Family × PageOp)}
    (hrun : FamilyRun t₀ l t) (h : FamilyInv g a t₀) :
    StaysGuarded a l t ↔ ∀ x ∈ l, ¬ WritesTo a x.1 x.2 := by
  constructor
  · intro hall
    induction hrun with
    | refl => exact fun _ hx => absurd hx List.not_mem_nil
    | tail hrun hstep ih =>
        obtain ⟨hend, hbegin⟩ := hall
        rw [List.forall_mem_cons] at hbegin ⊢
        have hnone := ih hbegin
        obtain ⟨ht, -⟩ := hrun.inv h hnone
        exact ⟨fun hwrites => hstep.not_guarded ht hwrites hend, hnone⟩
  · intro hnone
    obtain ⟨ht, hall⟩ := hrun.inv h hnone
    exact ⟨ht.guarded, fun x hx => (hall x hx).guarded⟩

theorem protected_iff (hboot : Booted g s₀) (hinit : initEmptyPages s₀ = (.ok (), s₁))
    (hruns : PageRuns s₁ s₂) (ha : UserAddr s₂ a) (hset : SetUp d a s₂ s)
    {l : List (Family × PageOp)} {t : Family} (hrun : FamilyRun ⟨s, [d]⟩ l t) :
    StaysGuarded a l t ↔ ∀ x ∈ l, ¬ WritesTo a x.1 x.2 := by
  obtain ⟨F, hs⟩ := hruns.of_boot hboot hinit
  exact hrun.staysGuarded_iff (hset.inv hs ((hs.linked.user_iff a).mp ha))

/-! ## A page that loses its protection -/

/-- The boot kernel with a protected page. -/
@[irreducible] def bootSealed : Kernel := (alloc ⟨0xEFC04000, 0⟩ true false bootTabled).2

/-- The user has written to it. -/
@[irreducible] def bootUnsealed : Kernel :=
  ((PageOp.access 0xEF800003 true 0xEF800000).exec bootSealed).2

theorem bootSealed_facts :
    (alloc ⟨0xEFC04000, 0⟩ true false bootTabled).1.toOption = some () ∧
    ((PageOp.access 0xEF800003 false 0xEF800000).exec bootSealed).1.toOption = some () ∧
    ((PageOp.access 0xEF800003 true 0xEF800000).exec bootSealed).1.toOption = some () ∧
    lookup bootUnsealed 0x2E0000 0xEF800000 = some ⟨0xEFC04000, 0⟩ ∧
    (bootUnsealed.page ⟨0xEFC04000, 0⟩).rw = true := by
  decide +kernel

theorem bootSealed_setUp : SetUp 0x2E0000 0xEF800000 bootStarted bootSealed := by
  refine .alloc ⟨bootUser_step.legal, ?_⟩
  rw [PageOp.exec, bind_ok bootTabled_run, bootSealed]
  exact eq_ok_of_toOption bootSealed_facts.1

theorem bootStarted_user : UserAddr bootStarted 0xEF800000 := by
  unfold UserAddr
  decide +kernel

/-- Reading leaves the protection alone. -/
theorem bootSealed_read : ∃ s, StaysGuarded 0xEF800000
    [(⟨bootSealed, [0x2E0000]⟩, .access 0xEF800003 false 0xEF800000)] ⟨s, [0x2E0000]⟩ := by
  have hstart : FamilyRun ⟨bootSealed, [0x2E0000]⟩ [] ⟨bootSealed, [0x2E0000]⟩ := .refl
  have hrun := hstart.tail (.access ⟨trivial, eq_ok_of_toOption bootSealed_facts.2.1⟩)
  refine ⟨_, (protected_iff bootKernel_booted bootStarted_run .refl bootStarted_user
    bootSealed_setUp hrun).mpr fun x hx => ?_⟩
  rw [List.mem_singleton.mp hx]
  rintro ⟨hwrite, -⟩
  cases hwrite

/-- Writing ends it. -/
theorem bootSealed_written : SetUp 0x2E0000 0xEF800000 bootStarted bootSealed ∧
    FamilyRun ⟨bootSealed, [0x2E0000]⟩
      [(⟨bootSealed, [0x2E0000]⟩, .access 0xEF800003 true 0xEF800000)]
      ⟨bootUnsealed, [0x2E0000]⟩ ∧
    ¬ WriteGuarded 0xEF800000 ⟨bootUnsealed, [0x2E0000]⟩ := by
  obtain ⟨-, -, hrun, hlook, hrw⟩ := bootSealed_facts
  refine ⟨bootSealed_setUp, FamilyRun.refl.tail (.access ⟨trivial, ?_⟩), fun hguarded => ?_⟩
  · rw [bootUnsealed]
    exact eq_ok_of_toOption hrun
  · obtain ⟨p, hp, hoff⟩ := hguarded 0x2E0000 List.mem_cons_self
    obtain rfl := Option.some.inj (hlook.symm.trans hp)
    exact absurd (hrw.symm.trans hoff) (by decide)

end Jkos.Page
