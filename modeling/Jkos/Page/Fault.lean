import Jkos.Page.Step

/-!
# Entries, faults and accesses

What the functions on single entries, the page-fault handler and an access to memory do,
as steps of the page tables. An access to a page that is open to it ends after at most
two faults, and only the lack of frames stops it.
-/

namespace Jkos

/-- The kernel without the entries, the reference counts and the frames. -/
def Kernel.rest (s : Kernel) : Kernel :=
  { s with frames := [], frameRefCnt := fun _ => 0, page := fun _ => Page.TableEntry.zero
           phys := fun _ _ => 0 }

namespace Page

open Exec

variable {g : Layout} {c : Prop} {K : Set Slot} {s s' s'' : Kernel} {p q : Slot} {f : Frame}
  {rest : List Frame}

variable (g c K) in
/-- Steps that change nothing else. -/
structure Work (s s' : Kernel) : Prop where
  steps : Steps g c K s s'
  rest : s'.rest = s.rest

namespace Work

theorem refl : Work g c K s s := ⟨.refl, rfl⟩

theorem trans (h : Work g c K s s') (h' : Work g c K s' s'') : Work g c K s s'' :=
  ⟨h.steps.trans h'.steps, h'.rest.trans h.rest⟩

theorem single (h : Step g c K s s') (hrest : s'.rest = s.rest) : Work g c K s s' :=
  ⟨.single h, hrest⟩

theorem mono {K' : Set Slot} (h : Work g c K s s') (hK : K ⊆ K') : Work g c K' s s' :=
  ⟨h.steps.mono hK, h.rest⟩

theorem dir_eq (h : Work g c K s s') : s'.dir = s.dir := (congrArg Kernel.dir h.rest :)

theorem tables_eq (h : Work g c K s s') : s'.tables = s.tables := (congrArg Kernel.tables h.rest :)

theorem dirs_eq (h : Work g c K s s') : s'.dirs = s.dirs := (congrArg Kernel.dirs h.rest :)

theorem current_eq (h : Work g c K s s') : s'.currentPageDir = s.currentPageDir :=
  (congrArg Kernel.currentPageDir h.rest :)

theorem codeEnd_eq (h : Work g c K s s') : s'.kernelCodeEnd = s.kernelCodeEnd :=
  (congrArg Kernel.kernelCodeEnd h.rest :)

theorem lookup_eq (h : Work g c K s s') (d addr : Word) : lookup s' d addr = lookup s d addr := by
  rw [lookup, lookup, h.dir_eq]

end Work

/-! ## Single entries -/

/-- The kernel after the entry has taken the frame `f` from the stack. -/
def taken (s : Kernel) (p : Slot) (f : Frame) (rest : List Frame) (user writable : Bool) : Kernel :=
  (({ s with frames := rest } : Kernel).setRef f 1).setEntry p
    ({ · with rw := writable, user := user, addr := f, allocable := true, present := true })

theorem alloc_of_held (h : (s.page p).addr ≠ 0) (user writable : Bool) :
    alloc p user writable s = (.ok (), s.setEntry p ({ · with rw := writable, user := user })) := by
  simp only [alloc, Kernel.page_setEntry_self]
  exact if_neg h

theorem alloc_of_nil (h : (s.page p).addr = 0) (hf : s.frames = []) (user writable : Bool) :
    alloc p user writable s =
      (.error .noFreeFrame, s.setEntry p ({ · with rw := writable, user := user })) := by
  simp only [alloc, Kernel.page_setEntry_self, if_pos h, Kernel.frames_setEntry, hf]

theorem alloc_of_cons (h : (s.page p).addr = 0) (hf : s.frames = f :: rest)
    (user writable : Bool) : alloc p user writable s = (.ok (), taken s p f rest user writable) := by
  simp only [alloc, Kernel.page_setEntry_self, if_pos h, Kernel.frames_setEntry, hf]
  congr 1
  rw [taken, ← Kernel.setEntry_setEntry _ p ({ · with rw := writable, user := user })
    ({ · with addr := f, allocable := true, present := true }),
    ← Kernel.setEntry_setEntry _ p ({ · with addr := f })
    ({ · with allocable := true, present := true })]
  rfl

/-- The outcomes of a successful `alloc`. -/
def Alloced (s : Kernel) (p : Slot) (user writable : Bool) (s' : Kernel) : Prop :=
  ((s.page p).addr ≠ 0 ∧ s' = s.setEntry p ({ · with rw := writable, user := user })) ∨
    ((s.page p).addr = 0 ∧ ∃ f rest, s.frames = f :: rest ∧ s' = taken s p f rest user writable)

/-- `alloc` fails only for lack of frames. -/
theorem alloc_ends (s : Kernel) (p : Slot) (user writable : Bool) :
    Ends (alloc p user writable) s (fun _ s' => Alloced s p user writable s')
      (fun e _ => e = .noFreeFrame) := by
  by_cases h : (s.page p).addr = 0
  · cases hf : s.frames with
    | nil => exact .of_error (alloc_of_nil h hf user writable) rfl
    | cons f rest =>
        exact .of_ok (alloc_of_cons h hf user writable) (.inr ⟨h, f, rest, hf, rfl⟩)
  · exact .of_ok (alloc_of_held h user writable) (.inl ⟨h, rfl⟩)

theorem Alloced.work {user writable : Bool} (h : Alloced s p user writable s') (hK : p ∈ K)
    (hp : Editable g s p)
    (hsole : c → writable = true → (s.page p).addr ≠ 0 → Sole g s p) : Work g c K s s' := by
  rcases h with ⟨hheld, rfl⟩ | ⟨hzero, f, rest, hf, rfl⟩
  · exact .single (.flags p _ hK hp rfl id hsole) rfl
  · exact .single (.take p f rest _ hK hp hf hzero rfl rfl rfl) rfl

theorem Alloced.page_self {user writable : Bool} (h : Alloced s p user writable s')
    (hs : FrameInv g s) : (s'.page p).addr ≠ 0 ∧ (s'.page p).rw = writable ∧
      (s'.page p).user = user ∧ (s'.page p).allocFill = (s.page p).allocFill := by
  rcases h with ⟨hheld, rfl⟩ | ⟨hzero, f, rest, hf, rfl⟩
  · rw [Kernel.page_setEntry_self]
    exact ⟨hheld, rfl, rfl, rfl⟩
  · rw [taken, Kernel.page_setEntry_self]
    exact ⟨hs.top_ne_zero hf, rfl, rfl, rfl⟩

/-- The bytes that `fill_uint32` writes. -/
def fillBytes (val : Word) : BitVec 12 → Byte :=
  fun off => (val >>> (8 * (off.toNat % 4))).setWidth 8

theorem fillBytes_zero : fillBytes 0 = fun _ => 0 := by
  funext off
  simp [fillBytes]

/-- The kernel with the first scratch page at a frame. -/
def scratched (s : Kernel) (f : Frame) : Kernel := s.setEntry s.emptyPage0 ({ · with addr := f })

/-- The kernel with both scratch pages at frames. -/
def scratchedBoth (s : Kernel) (f f' : Frame) : Kernel :=
  (scratched s f).setEntry s.emptyPage1 ({ · with addr := f' })

theorem fillUint32_apply (s : Kernel) (p : Slot) (val : Word) :
    fillUint32 p val s =
      (.ok (), (scratched s (s.page p).addr).setFrame (s.page p).addr (fillBytes val)) := by
  simp only [fillUint32, modify_apply, Kernel.page_setEntry_self, Kernel.emptyPage0_setEntry]
  rfl

/-- The number of a frame from its address. -/
theorem frameAddr_shift (f : Frame) : (frameAddr f >>> 12).setWidth 20 = f := by
  have hlt := f.isLt
  apply BitVec.eq_of_toNat_eq
  simp only [frameAddr, BitVec.toNat_setWidth, BitVec.toNat_ushiftRight, BitVec.toNat_shiftLeft,
    Nat.shiftLeft_eq, Nat.shiftRight_eq_div_pow]
  omega

theorem copyPagePhysical_apply (s : Kernel) (f : Frame) (src : Word) :
    copyPagePhysical (frameAddr f) src s =
      (.ok (), (scratchedBoth s ((src >>> 12).setWidth 20) f).setFrame f
        (s.phys ((scratchedBoth s ((src >>> 12).setWidth 20) f).page s.emptyPage0).addr)) := by
  simp only [copyPagePhysical, modify_apply, frameAddr_shift, Kernel.page_setEntry_self,
    Kernel.emptyPage1_setEntry, Kernel.emptyPage0_setEntry]
  rfl

section Filling

variable (hp : Editable g s p)
include hp

theorem page_scratched (f : Frame) : (scratched s f).page p = s.page p :=
  Kernel.page_setEntry_of_ne _ _ hp.counted.2.1

theorem page_scratchedBoth (f f' : Frame) : (scratchedBoth s f f').page p = s.page p :=
  (Kernel.page_setEntry_of_ne _ _ hp.counted.2.2).trans (page_scratched hp f)

variable (hK : p ∈ K) (hheld : (s.page p).addr ≠ 0) (hsole : c → Sole g s p)
include hK hheld hsole

omit hp in
/-- Writing the frame of an entry through a state with the same entry. -/
theorem write_step {s₁ : Kernel} (hpage : s₁.page p = s.page p) (hp₁ : Editable g s₁ p)
    (href : s₁.frameRefCnt = s.frameRefCnt) (bytes : BitVec 12 → Byte) :
    Step g c K s₁ (s₁.setFrame (s.page p).addr bytes) := by
  rw [← hpage]
  refine .write p bytes hK hp₁ (by rwa [hpage]) fun hc => ?_
  rw [Sole, hpage, href]
  exact hsole hc

/-- `fill_uint32` of a page with a frame of its own. -/
theorem fillUint32_work (val : Word) : Work g c K s (fillUint32 p val s).2 := by
  have hfirst : Work g c K s (scratched s (s.page p).addr) :=
    .single (.scratch _ _ (.inl rfl)) rfl
  rw [fillUint32_apply]
  exact hfirst.trans (.single (write_step hK hheld hsole (page_scratched hp _)
    ⟨hp.counted, hp.ordinary⟩ rfl _) rfl)

/-- `copy_page_physical` to the frame of a page that nobody else has. -/
theorem copyPagePhysical_work (src : Word) :
    Work g c K s (copyPagePhysical (frameAddr (s.page p).addr) src s).2 := by
  have hfirst : Work g c K s (scratched s ((src >>> 12).setWidth 20)) :=
    .single (.scratch _ _ (.inl rfl)) rfl
  have hsecond : Work g c K (scratched s ((src >>> 12).setWidth 20))
      (scratchedBoth s ((src >>> 12).setWidth 20) (s.page p).addr) :=
    .single (.scratch _ _ (.inr rfl)) rfl
  rw [copyPagePhysical_apply]
  exact hfirst.trans (hsecond.trans (.single (write_step hK hheld hsole
    (page_scratchedBoth hp _ _) ⟨hp.counted, hp.ordinary⟩ rfl _) rfl))

end Filling

/-- `lazy_alloc` of an editable entry. -/
theorem lazyAlloc_ends (hK : p ∈ K) (hp : Editable g s p) (user writable fillZero : Bool)
    (hsole : c → writable = true ∨ fillZero = true → (s.page p).addr ≠ 0 → Sole g s p) :
    Ends (lazyAlloc p user writable fillZero) s (fun _ s' => Work g c K s s')
      (fun _ _ => False) := by
  have hfirst : Work g c K s (s.setEntry p ({ · with rw := writable, user := user })) :=
    .single (.flags p _ hK hp rfl id (fun hc hw => hsole hc (.inl hw))) rfl
  refine Ends.bind (Q := fun _ s₁ => s₁ = s.setEntry p ({ · with rw := writable, user := user }))
    rfl ?_
  rintro - s₁ rfl
  change Ends (if ((s.setEntry p _).page p).addr = 0 then _ else _) _ _ _
  rw [Kernel.page_setEntry_self]
  split
  · next hzero =>
      exact hfirst.trans (.single (.flags p _ hK ⟨hp.counted, hp.ordinary⟩ rfl
        (fun h => ⟨h.1, fun hne => absurd (by rw [Kernel.page_setEntry_self]; exact hzero) hne⟩)
        (fun _ _ hne => absurd (by rw [Kernel.page_setEntry_self]; exact hzero) hne)) rfl)
  · next hheld =>
      split
      · next hfill =>
          have hfill' := fillUint32_work (g := g) (c := c) (K := K) (p := p)
            (s := s.setEntry p ({ · with rw := writable, user := user }))
            ⟨hp.counted, hp.ordinary⟩ hK (by rw [Kernel.page_setEntry_self]; exact hheld)
            (fun hc => by
              rw [Sole, Kernel.page_setEntry_self]
              exact hsole hc (.inr hfill) hheld) 0
          exact hfirst.trans hfill'
      · exact hfirst

theorem free_rest (s : Kernel) (p : Slot) : (free p s).2.rest = s.rest := by
  by_cases hzero : (s.page p).addr = 0
  · rw [free_of_zero hzero]
  · by_cases hone : s.frameRefCnt (s.page p).addr = 1
    · rw [free_of_one hzero hone]
      rfl
    · rw [free_of_many hzero hone]
      rfl

theorem free_ends (hK : p ∈ K) (hp : Editable g s p) :
    Ends (free p) s (fun _ s' => Work g c K s s') (fun _ _ => False) :=
  Work.single (Step.free p hK hp) (free_rest s p)

/-! ## Page faults -/

section PageFault

variable {addr errCode eip : Word}

/-- The handler may act on this entry. -/
def Open (s : Kernel) (p : Slot) (eip : Word) : Prop :=
  (s.page p).allocable = true ∧ ((s.page p).user = true ∨ eip < s.kernelCodeEnd)

theorem Open.not_closed (h : Open s p eip) : ¬ ((s.page p).allocable = false ∨
    ((s.page p).user = false ∧ eip ≥ s.kernelCodeEnd)) := by
  rw [not_or, Bool.not_eq_false, not_and_or, Bool.not_eq_false, ge_iff_le, BitVec.not_le]
  exact h

theorem pageFault_of_none (hlook : lookup s s.currentPageDir addr = none) :
    pageFault addr errCode eip s = (.error (.pageFault addr errCode), s) := by
  simp only [pageFault, bind_apply, read_apply, hlook, throw_apply]

variable (hlook : lookup s s.currentPageDir addr = some p)
include hlook

theorem pageFault_of_closed (h : ¬ Open s p eip) :
    pageFault addr errCode eip s = (.error (.pageFault addr errCode), s) := by
  have hclosed : (s.page p).allocable = false ∨
      ((s.page p).user = false ∧ eip ≥ s.kernelCodeEnd) := by
    rw [Open, not_and_or, Bool.not_eq_true, not_or, Bool.not_eq_true, BitVec.not_lt] at h
    exact h
  simp only [pageFault, bind_apply, read_apply, hlook, if_pos hclosed, throw_apply]

/-- The lazy allocation, for a fault on a page that is not present. -/
theorem pageFault_of_absent (h : Open s p eip) (herr : errCode &&& 1 = 0) :
    pageFault addr errCode eip s = (do
      alloc p (s.page p).user (s.page p).rw
      if (← read (·.page p)).allocFill ≠ 0 then fillUint32 p 0 else pure ()) s := by
  simp only [pageFault, bind_apply, read_apply, hlook, if_neg h.not_closed, if_pos herr]

variable (h : Open s p eip) (herr : errCode &&& 1 ≠ 0)
include h herr

theorem pageFault_of_reject (hreject : ¬ (errCode &&& 2 ≠ 0 ∧ (s.page p).user = true)) :
    pageFault addr errCode eip s = (.error (.pageFault addr errCode), s) := by
  simp only [pageFault, bind_apply, read_apply, hlook, if_neg h.not_closed, if_neg herr,
    if_neg hreject, throw_apply]

variable (hwrite : errCode &&& 2 ≠ 0 ∧ (s.page p).user = true)
include hwrite

theorem pageFault_of_count (hcount : (s.page p).addr = 0 ∨ s.frameRefCnt (s.page p).addr = 0) :
    pageFault addr errCode eip s = (.error (.pageFault addr errCode), s) := by
  simp only [pageFault, bind_apply, read_apply, hlook, if_neg h.not_closed, if_neg herr,
    if_pos hwrite, if_pos hcount, throw_apply]

variable (hheld : (s.page p).addr ≠ 0)
include hheld

/-- The only holder of a frame gets the write permission. -/
theorem pageFault_of_one (hone : s.frameRefCnt (s.page p).addr = 1) :
    pageFault addr errCode eip s = (.ok (), s.setEntry p ({ · with rw := true })) := by
  have hcount : ¬ ((s.page p).addr = 0 ∨ s.frameRefCnt (s.page p).addr = 0) := by
    rw [hone, not_or]
    exact ⟨hheld, by decide⟩
  simp only [pageFault, bind_apply, read_apply, hlook, if_neg h.not_closed, if_neg herr,
    if_pos hwrite, if_neg hcount, if_pos hone, modify_apply]

/-- One of several holders of a frame gets a copy. -/
theorem pageFault_of_many (hsome : s.frameRefCnt (s.page p).addr ≠ 0)
    (hmany : s.frameRefCnt (s.page p).addr ≠ 1) :
    pageFault addr errCode eip s = (do
      alloc p true true
      copyPagePhysical (frameAddr (← read (·.page p)).addr) (frameAddr (s.page p).addr))
        ((s.setRef (s.page p).addr (s.frameRefCnt (s.page p).addr - 1)).setEntry p
          ({ · with addr := 0 })) := by
  have hcount : ¬ ((s.page p).addr = 0 ∨ s.frameRefCnt (s.page p).addr = 0) := by
    rw [not_or]
    exact ⟨hheld, hsome⟩
  simp only [pageFault, bind_apply, read_apply, hlook, if_neg h.not_closed, if_neg herr,
    if_pos hwrite, if_neg hcount, if_neg hmany, modify_apply]

end PageFault

/-- The kernel after a lazy allocation of the frame `f`. -/
def faultIn (s : Kernel) (p : Slot) (f : Frame) (rest : List Frame) : Kernel :=
  let s₁ := taken s p f rest (s.page p).user (s.page p).rw
  if (s.page p).allocFill ≠ 0 then (fillUint32 p 0 s₁).2 else s₁

/-- The kernel before the copy to the frame `f`: the entry has given up its old frame and
taken the new one. -/
def moved (s : Kernel) (p : Slot) (f : Frame) (rest : List Frame) : Kernel :=
  (({ s.setRef (s.page p).addr (s.frameRefCnt (s.page p).addr - 1) with
    frames := rest } : Kernel).setRef f 1).setEntry p
    ({ · with rw := true, user := true, addr := f, allocable := true, present := true })

/-- The kernel after a copy-on-write to the frame `f`. -/
def copied (s : Kernel) (p : Slot) (f : Frame) (rest : List Frame) : Kernel :=
  (copyPagePhysical (frameAddr f) (frameAddr (s.page p).addr) (moved s p f rest)).2

/-- What a page fault can do to the page of the faulting address. -/
inductive Resolved (p : Slot) (s : Kernel) : Kernel → Prop
  | lazy {f : Frame} {rest : List Frame} (zero : (s.page p).addr = 0)
      (top : s.frames = f :: rest) : Resolved p s (faultIn s p f rest)
  | upgrade (user : (s.page p).user = true) (held : (s.page p).addr ≠ 0)
      (one : s.frameRefCnt (s.page p).addr = 1) :
      Resolved p s (s.setEntry p ({ · with rw := true }))
  | copy {f : Frame} {rest : List Frame} (user : (s.page p).user = true)
      (held : (s.page p).addr ≠ 0) (many : s.frameRefCnt (s.page p).addr ≠ 1)
      (top : s.frames = f :: rest) : Resolved p s (copied s p f rest)

theorem moved_eq (s : Kernel) (p : Slot) (f : Frame) (rest : List Frame) :
    taken ((s.setRef (s.page p).addr (s.frameRefCnt (s.page p).addr - 1)).setEntry p
      ({ · with addr := 0 })) p f rest true true = moved s p f rest :=
  Kernel.setEntry_setEntry (({ s.setRef (s.page p).addr
    (s.frameRefCnt (s.page p).addr - 1) with frames := rest } : Kernel).setRef f 1) p
    ({ · with addr := 0 })
    ({ · with rw := true, user := true, addr := f, allocable := true, present := true })

theorem page_taken (s : Kernel) (p : Slot) (f : Frame) (rest : List Frame) (user writable : Bool) :
    (taken s p f rest user writable).page p =
      { s.page p with rw := writable, user := user, addr := f, allocable := true, present := true } :=
  Kernel.page_setEntry_self _ _ _

theorem page_moved (s : Kernel) (p : Slot) (f : Frame) (rest : List Frame) :
    (moved s p f rest).page p =
      { s.page p with rw := true, user := true, addr := f, allocable := true, present := true } :=
  Kernel.page_setEntry_self _ _ _

/-- Filling changes no entry but those of the scratch pages. -/
theorem page_fillUint32 (hp : Editable g s p) (q : Slot) (val : Word) :
    (fillUint32 q val s).2.page p = s.page p := by
  rw [fillUint32_apply]
  exact page_scratched hp _

theorem page_copyPagePhysical (hp : Editable g s p) (src : Word) :
    (copyPagePhysical (frameAddr f) src s).2.page p = s.page p := by
  rw [copyPagePhysical_apply]
  exact page_scratchedBoth hp _ _

theorem page_faultIn (hp : Editable g s p) (f : Frame) (rest : List Frame) :
    (faultIn s p f rest).page p =
      { s.page p with addr := f, allocable := true, present := true } := by
  have htaken := page_taken s p f rest (s.page p).user (s.page p).rw
  simp only [faultIn]
  split
  · have hp' : Editable g (taken s p f rest (s.page p).user (s.page p).rw) p :=
      ⟨hp.counted, hp.ordinary⟩
    rw [page_fillUint32 hp', htaken]
  · exact htaken

theorem page_copied (hp : Editable g s p) (f : Frame) (rest : List Frame) :
    (copied s p f rest).page p =
      { s.page p with rw := true, user := true, addr := f, allocable := true, present := true } := by
  have hp' : Editable g (moved s p f rest) p := ⟨hp.counted, hp.ordinary⟩
  rw [copied, page_copyPagePhysical hp', page_moved]

/-- The entry afterwards: the user bit stays, the frame is there. -/
theorem Resolved.page_self (h : Resolved p s s') (hs : FrameInv g s) (hp : Editable g s p) :
    (s'.page p).addr ≠ 0 ∧ (s'.page p).user = (s.page p).user ∧
      ((s.page p).rw = true → (s'.page p).rw = true) := by
  cases h with
  | lazy zero top =>
      rw [page_faultIn hp]
      exact ⟨hs.top_ne_zero top, rfl, id⟩
  | upgrade user held one =>
      rw [Kernel.page_setEntry_self]
      exact ⟨held, rfl, fun _ => rfl⟩
  | copy user held many top =>
      rw [page_copied hp]
      exact ⟨hs.top_ne_zero top, user.symm, fun _ => rfl⟩

theorem Resolved.work (h : Resolved p s s') (hs : FrameInv g s) (hK : p ∈ K)
    (hp : Editable g s p) : Work g c K s s' := by
  cases h with
  | @lazy f rest zero top =>
      have hfirst : Work g c K s (taken s p f rest (s.page p).user (s.page p).rw) :=
        .single (.take p f rest _ hK hp top zero rfl rfl rfl) rfl
      simp only [faultIn]
      split
      · refine hfirst.trans (fillUint32_work (hfirst.steps.editable hp) hK ?_
          (fun _ => .inr ?_) 0)
        · rw [page_taken]
          exact hs.top_ne_zero top
        · rw [page_taken]
          exact if_pos rfl
      · exact hfirst
  | upgrade user held one =>
      exact .single (.flags p _ hK hp rfl id (fun _ _ _ => .inr one)) rfl
  | @copy f rest user held many top =>
      have hfirst : Work g c K s (moved s p f rest) :=
        .single (.replace p f rest _ hK hp top held many rfl rfl rfl) rfl
      have hsecond := copyPagePhysical_work (g := g) (c := c) (K := K) (p := p)
        (hfirst.steps.editable hp) hK
        (by rw [page_moved]; exact hs.top_ne_zero top)
        (fun _ => .inr (by rw [page_moved]; exact if_pos rfl)) (frameAddr (s.page p).addr)
      rw [page_moved] at hsecond
      exact hfirst.trans hsecond

theorem Resolved.page_other (h : Resolved p s s') (hq : Editable g s q) (hne : q ≠ p) :
    s'.page q = s.page q := by
  cases h with
  | @lazy f rest zero top =>
      have htaken : (taken s p f rest (s.page p).user (s.page p).rw).page q = s.page q :=
        Kernel.page_setEntry_of_ne _ _ hne
      have hq' : Editable g (taken s p f rest (s.page p).user (s.page p).rw) q :=
        ⟨hq.counted, hq.ordinary⟩
      simp only [faultIn]
      split
      · rw [page_fillUint32 hq', htaken]
      · exact htaken
  | upgrade user held one => exact Kernel.page_setEntry_of_ne _ _ hne
  | @copy f rest user held many top =>
      have hmoved : (moved s p f rest).page q = s.page q := Kernel.page_setEntry_of_ne _ _ hne
      have hq' : Editable g (moved s p f rest) q := ⟨hq.counted, hq.ordinary⟩
      rw [copied, page_copyPagePhysical hq', hmoved]

/-- A page shows the same after a fault on it. -/
theorem Resolved.view_self (h : Resolved p s s') (hs : FrameInv g s) (hp : Editable g s p)
    (hne : (s.page p).user = true → s.emptyPage0 ≠ s.emptyPage1) {bytes : BitVec 12 → Byte}
    (hview : view s p = some bytes) : view s' p = some bytes := by
  have hafter := (h.page_self hs hp).1
  rw [view, if_pos hafter]
  cases h with
  | @lazy f rest zero top =>
      rw [view, if_neg (fun hheld => hheld zero)] at hview
      split at hview
      · next hfill =>
          have hp' : Editable g (taken s p f rest (s.page p).user (s.page p).rw) p :=
            ⟨hp.counted, hp.ordinary⟩
          rw [page_faultIn hp, ← hview, faultIn]
          simp only [if_pos hfill.2, fillUint32_apply, page_taken, fillBytes_zero]
          exact congrArg some (if_pos rfl)
      · cases hview
  | upgrade user held one =>
      rw [view, if_pos held] at hview
      rw [Kernel.page_setEntry_self]
      exact hview
  | @copy f rest user held many top =>
      rw [view, if_pos held] at hview
      rw [page_copied hp, ← hview]
      -- the first scratch page still shows the old frame
      have hold : ((scratchedBoth (moved s p f rest) (s.page p).addr f).page
          (moved s p f rest).emptyPage0).addr = (s.page p).addr := by
        have hne' : (moved s p f rest).emptyPage0 ≠ (moved s p f rest).emptyPage1 := hne user
        rw [scratchedBoth, Kernel.page_setEntry_of_ne _ _ hne']
        rw [scratched, Kernel.page_setEntry_self]
      rw [copied, copyPagePhysical_apply, frameAddr_shift, hold]
      exact congrArg some (if_pos rfl)

section PageFault

variable {addr errCode eip : Word} (hlook : lookup s s.currentPageDir addr = some p)
  (hopen : Open s p eip)
include hlook hopen

/-- The lazy branch. -/
theorem pageFault_lazy_ends (herr : errCode &&& 1 = 0) (hzero : (s.page p).addr = 0) :
    Ends (pageFault addr errCode eip) s (fun _ s' => Resolved p s s')
      (fun e _ => e = .noFreeFrame) := by
  have hfault := pageFault_of_absent hlook hopen herr
  cases hf : s.frames with
  | nil =>
      rw [bind_error (alloc_of_nil hzero hf _ _)] at hfault
      exact .of_error hfault rfl
  | cons f rest =>
      rw [bind_ok (alloc_of_cons hzero hf _ _), bind_ok (read_apply _ _), page_taken] at hfault
      suffices hrun : pageFault addr errCode eip s = (.ok (), faultIn s p f rest) from
        .of_ok hrun (.lazy hzero hf)
      rw [hfault]
      by_cases hfill : (s.page p).allocFill ≠ 0
      · simp only [faultIn, if_pos hfill, fillUint32_apply]
      · simp only [faultIn, if_neg hfill, pure_apply]

/-- The copy-on-write branch. -/
theorem pageFault_write_ends (hp : Editable g s p) (herr : errCode &&& 1 ≠ 0)
    (hwrite : errCode &&& 2 ≠ 0 ∧ (s.page p).user = true) (hheld : (s.page p).addr ≠ 0)
    (hsome : s.frameRefCnt (s.page p).addr ≠ 0) :
    Ends (pageFault addr errCode eip) s (fun _ s' => Resolved p s s' ∧ (s'.page p).rw = true)
      (fun e _ => e = .noFreeFrame) := by
  by_cases hone : s.frameRefCnt (s.page p).addr = 1
  · refine .of_ok (pageFault_of_one hlook hopen herr hwrite hheld hone)
      ⟨.upgrade hwrite.2 hheld hone, ?_⟩
    rw [Kernel.page_setEntry_self]
  · have hfault := pageFault_of_many hlook hopen herr hwrite hheld hsome hone
    have hzero : (((s.setRef (s.page p).addr (s.frameRefCnt (s.page p).addr - 1)).setEntry p
        ({ · with addr := 0 })).page p).addr = 0 := by
      rw [Kernel.page_setEntry_self]
    cases hf : s.frames with
    | nil =>
        rw [bind_error (alloc_of_nil hzero hf _ _)] at hfault
        exact .of_error hfault rfl
    | cons f rest =>
        rw [bind_ok (alloc_of_cons hzero hf _ _), moved_eq, bind_ok (read_apply _ _),
          page_moved] at hfault
        have hrun : pageFault addr errCode eip s = (.ok (), copied s p f rest) := by
          rw [hfault, copied, copyPagePhysical_apply]
        exact .of_ok hrun ⟨.copy hwrite.2 hheld hone hf, by rw [page_copied hp]⟩

end PageFault

theorem errCodeOf_absent (write user : Bool) : errCodeOf false write user &&& 1 = 0 := by
  cases write <;> cases user <;> decide

theorem errCodeOf_protection (write user : Bool) : errCodeOf true write user &&& 1 ≠ 0 := by
  cases write <;> cases user <;> decide

theorem errCodeOf_write (user : Bool) : errCodeOf true true user &&& 2 ≠ 0 := by
  cases user <;> decide

/-! ## Accesses -/

/-- Faults on one page, one after the other. -/
abbrev Faults (p : Slot) : Kernel → Kernel → Prop := Relation.ReflTransGen (Resolved p)

theorem Faults.work (h : Faults p s s') (hs : Sound g c s) (hK : p ∈ K)
    (hp : Editable g s p) : Work g c K s s' := by
  induction h with
  | refl => exact .refl
  | tail _ hstep ih =>
      exact ih.trans (hstep.work (ih.steps.sound hs).frames hK (ih.steps.editable hp))

theorem Faults.user_eq (h : Faults p s s') (hs : Sound g c s) (hp : Editable g s p) :
    (s'.page p).user = (s.page p).user := by
  induction h with
  | refl => rfl
  | tail hchain hstep ih =>
      have hwork := Faults.work (K := {p}) hchain hs rfl hp
      exact (hstep.page_self (hwork.steps.sound hs).frames (hwork.steps.editable hp)).2.1.trans ih

theorem Faults.rw_mono (h : Faults p s s') (hs : Sound g c s) (hp : Editable g s p)
    (hrw : (s.page p).rw = true) : (s'.page p).rw = true := by
  induction h with
  | refl => exact hrw
  | tail hchain hstep ih =>
      have hwork := Faults.work (K := {p}) hchain hs rfl hp
      exact (hstep.page_self (hwork.steps.sound hs).frames (hwork.steps.editable hp)).2.2 ih

/-- A page of the kernel that has its frame cannot fault. -/
theorem Faults.eq_of_kernel (h : Faults p s s') (huser : (s.page p).user = false)
    (hheld : (s.page p).addr ≠ 0) : s' = s := by
  rcases h.cases_head with rfl | ⟨t, hstep, -⟩
  · rfl
  · cases hstep with
    | lazy zero top => exact absurd zero hheld
    | upgrade user held one => exact absurd (user.symm.trans huser) (by decide)
    | copy user held many top => exact absurd (user.symm.trans huser) (by decide)

/-- Faults change no other entry. -/
theorem Faults.page_other (h : Faults p s s') (hs : Sound g c s) (hp : Editable g s p)
    (hq : Editable g s q) (hne : q ≠ p) : s'.page q = s.page q := by
  induction h with
  | refl => rfl
  | tail hchain hstep ih =>
      have hwork := Faults.work (K := {p}) hchain hs rfl hp
      exact (hstep.page_other (hwork.steps.editable hq) hne).trans ih

theorem Faults.view_self (h : Faults p s s') (hs : Sound g c s) (hp : Editable g s p)
    (hne : (s.page p).user = true → s.emptyPage0 ≠ s.emptyPage1) {bytes : BitVec 12 → Byte}
    (hview : view s p = some bytes) : view s' p = some bytes := by
  induction h with
  | refl => exact hview
  | tail hchain hstep ih =>
      have hwork := Faults.work (K := {p}) hchain hs rfl hp
      have h0 := (congrArg Kernel.emptyPage0 hwork.rest :)
      have h1 := (congrArg Kernel.emptyPage1 hwork.rest :)
      refine hstep.view_self (hwork.steps.sound hs).frames (hwork.steps.editable hp)
        (fun huser e => hne ?_ (h0.symm.trans (e.trans h1))) ih
      rw [← Faults.user_eq hchain hs hp]
      exact huser

/-- The page is open to this access, perhaps after faults. -/
structure Granted (s : Kernel) (p : Slot) (write : Bool) (eip : Word) : Prop where
  isOpen : Open s p eip
  writable : write = true → (s.page p).rw = true ∨ (s.page p).user = true

/-- What an access to a page ends with. -/
structure Accessed (p : Slot) (write : Bool) (s : Kernel) (f : Frame) (s' : Kernel) : Prop where
  faults : Faults p s s'
  addr : (s'.page p).addr = f
  held : f ≠ 0
  writable : write = true → (s'.page p).rw = true

section Access

variable {addr eip : Word} {write : Bool}

theorem accessLoop_of_walk {f : Frame} {n : Nat}
    (h : walk s addr write (decide (s.kernelCodeEnd ≤ eip)) = .ok f) :
    accessLoop addr write eip (n + 1) s = (.ok f, s) := by
  simp only [accessLoop, bind_apply, read_apply, h, pure_apply]

theorem accessLoop_of_fault {errCode : Word} {n : Nat}
    (h : walk s addr write (decide (s.kernelCodeEnd ≤ eip)) = .error errCode) :
    accessLoop addr write eip (n + 1) s =
      (pageFault addr errCode eip >>= fun _ => accessLoop addr write eip n) s := by
  simp only [accessLoop, bind_apply, read_apply, h]

/-- An access that the tables refuse and the handler does not serve. -/
theorem access_of_refused (hwalk : ∃ errCode,
      walk s addr write (decide (s.kernelCodeEnd ≤ eip)) = .error errCode)
    (hfault : ∀ errCode, pageFault addr errCode eip s = (.error (.pageFault addr errCode), s)) :
    ∃ errCode, access addr write eip s = (.error (.pageFault addr errCode), s) := by
  obtain ⟨errCode, hwalk⟩ := hwalk
  have hfuel : loopBound = (loopBound - 1) + 1 := by decide
  refine ⟨errCode, ?_⟩
  rw [access, hfuel, accessLoop_of_fault hwalk, bind_error (hfault errCode)]

/-- A page that is not open to faults cannot be accessed. -/
theorem access_of_closed (hs : Sound g c s) (hlook : lookup s s.currentPageDir addr = some p)
    (hp : Editable g s p) (hclosed : (s.page p).allocable = false) :
    Ends (access addr write eip) s (fun _ _ => False) (fun _ _ => True) := by
  have hshape := hs.shaped p hp
  have hzero : (s.page p).addr = 0 := by
    by_contra hheld
    exact absurd ((hshape.2 hheld).symm.trans hclosed) (by decide)
  have hpresent : (s.page p).present = false := by
    rw [Bool.eq_false_iff]
    exact fun e => hshape.1.mp e hzero
  have hwalk : walk s addr write (decide (s.kernelCodeEnd ≤ eip)) =
      .error (errCodeOf false write (decide (s.kernelCodeEnd ≤ eip))) := by
    simp only [walk, hlook, hpresent, if_true]
  have hfuel : loopBound = (loopBound - 1) + 1 := by decide
  have hnot : ¬ Open s p eip := fun h => absurd (h.1.symm.trans hclosed) (by decide)
  rw [access, hfuel, Ends, accessLoop_of_fault hwalk, bind_error (pageFault_of_closed hlook hnot)]
  trivial

/-- Nor can a page without a table. -/
theorem access_of_none (hlook : lookup s s.currentPageDir addr = none) :
    Ends (access addr write eip) s (fun _ _ => False) (fun _ _ => True) := by
  have hwalk : walk s addr write (decide (s.kernelCodeEnd ≤ eip)) =
      .error (errCodeOf false write (decide (s.kernelCodeEnd ≤ eip))) := by
    simp only [walk, hlook]
  have hfuel : loopBound = (loopBound - 1) + 1 := by decide
  rw [access, hfuel, Ends, accessLoop_of_fault hwalk, bind_error (pageFault_of_none hlook)]
  trivial

variable (hs : Sound g c s) (hlook : lookup s s.currentPageDir addr = some p)
  (hp : Editable g s p) (hgrant : Granted s p write eip)
include hs hlook hp hgrant

/-- The walk over a page with a frame fails only for the lack of the write permission. -/
theorem walk_of_held (hheld : (s.page p).addr ≠ 0) :
    walk s addr write (decide (s.kernelCodeEnd ≤ eip)) =
      if write = true ∧ (s.page p).rw = false then
        .error (errCodeOf true write (decide (s.kernelCodeEnd ≤ eip)))
      else .ok (s.page p).addr := by
  have hpresent : (s.page p).present = true := (hs.shaped p hp).1.mpr hheld
  have huser : ¬ (decide (s.kernelCodeEnd ≤ eip) = true ∧ (s.page p).user = false) := by
    rintro ⟨hle, huser⟩
    rcases hgrant.isOpen.2 with h | h
    · rw [huser] at h
      cases h
    · exact absurd (of_decide_eq_true hle) (BitVec.not_le.mpr h)
  simp only [walk, hlook, hpresent, Bool.true_eq_false, if_false, huser, false_or]

theorem accessLoop_of_held (n : Nat) (hheld : (s.page p).addr ≠ 0) :
    Ends (accessLoop addr write eip (n + 2)) s (fun f s' => Accessed p write s f s')
      (fun e _ => e = .noFreeFrame) := by
  have hwalk := walk_of_held hs hlook hp hgrant hheld
  by_cases hw : write = true ∧ (s.page p).rw = false
  · rw [if_pos hw] at hwalk
    obtain ⟨hwrite, hrw⟩ := hw
    subst hwrite
    have huser : (s.page p).user = true :=
      (hgrant.writable rfl).resolve_left (by rw [hrw]; decide)
    have href : s.frameRefCnt (s.page p).addr ≠ 0 := by
      obtain ⟨heq, hpos⟩ := hs.frames.ref_eq hp.counted hp.ordinary rfl hheld
      intro e
      rw [e] at heq
      exact absurd (heq.symm ▸ hpos) (by decide)
    rw [Ends, accessLoop_of_fault hwalk]
    refine Ends.bind (pageFault_write_ends hlook hgrant.isOpen hp (errCodeOf_protection _ _)
      ⟨errCodeOf_write _, huser⟩ hheld href) ?_
    rintro - s₁ ⟨hres, hrw₁⟩
    have hwork := hres.work (c := c) (K := {p}) hs.frames rfl hp
    obtain ⟨hheld₁, huser₁, -⟩ := hres.page_self hs.frames hp
    have hp₁ := hwork.steps.editable hp
    have hs₁ := hwork.steps.sound hs
    have hgrant₁ : Granted s₁ p true eip :=
      ⟨⟨(hs₁.shaped p hp₁).2 hheld₁, .inl (huser₁.trans huser)⟩, fun _ => .inl hrw₁⟩
    have hlook₁ : lookup s₁ s₁.currentPageDir addr = some p := by
      rw [hwork.lookup_eq, hwork.current_eq, hlook]
    have hwalk₁ := walk_of_held hs₁ hlook₁ hp₁ hgrant₁ hheld₁
    rw [if_neg (by rw [hrw₁]; simp)] at hwalk₁
    exact .of_ok (accessLoop_of_walk hwalk₁)
      ⟨.single hres, rfl, hheld₁, fun _ => hrw₁⟩
  · rw [if_neg hw] at hwalk
    refine .of_ok (accessLoop_of_walk hwalk) ⟨.refl, rfl, hheld, fun e => ?_⟩
    rw [not_and, Bool.not_eq_false] at hw
    exact hw e

/-- An access to a page that is open to it succeeds unless frames run out. -/
theorem access_ends : Ends (access addr write eip) s (fun f s' => Accessed p write s f s')
    (fun e _ => e = .noFreeFrame) := by
  have hfuel : loopBound = (loopBound - 3) + 3 := by decide
  rw [access, hfuel]
  by_cases hheld : (s.page p).addr = 0
  · have hpresent : (s.page p).present = false := by
      rw [Bool.eq_false_iff]
      exact fun e => (hs.shaped p hp).1.mp e hheld
    have hwalk : walk s addr write (decide (s.kernelCodeEnd ≤ eip)) =
        .error (errCodeOf false write (decide (s.kernelCodeEnd ≤ eip))) := by
      simp only [walk, hlook, hpresent, if_true]
    rw [Ends, accessLoop_of_fault hwalk]
    refine Ends.bind (pageFault_lazy_ends hlook hgrant.isOpen (errCodeOf_absent _ _) hheld) ?_
    intro _ s₁ hres
    have hwork := hres.work (c := c) (K := {p}) hs.frames rfl hp
    obtain ⟨hheld₁, huser₁, hrw₁⟩ := hres.page_self hs.frames hp
    have hp₁ := hwork.steps.editable hp
    have hs₁ := hwork.steps.sound hs
    have hgrant₁ : Granted s₁ p write eip := by
      refine ⟨⟨(hs₁.shaped p hp₁).2 hheld₁, ?_⟩, fun hw => ?_⟩
      · rw [huser₁, hwork.codeEnd_eq]
        exact hgrant.isOpen.2
      · rw [huser₁]
        exact (hgrant.writable hw).imp_left hrw₁
    have hlook₁ : lookup s₁ s₁.currentPageDir addr = some p := by
      rw [hwork.lookup_eq, hwork.current_eq, hlook]
    refine (accessLoop_of_held hs₁ hlook₁ hp₁ hgrant₁ _ hheld₁).mono (fun f s' h => ?_)
      (fun _ _ h => h)
    exact ⟨.head hres h.faults, h.addr, h.held, h.writable⟩
  · exact accessLoop_of_held hs hlook hp hgrant _ hheld

end Access

end Page

end Jkos
