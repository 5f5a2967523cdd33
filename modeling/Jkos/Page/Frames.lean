import Jkos.Page.Basic
import Mathlib.Data.Set.Card

/-!
# Frame accounting

A frame is held by the page-table entries that carry its number; the entries of the two
scratch pages do not count. `FrameInv` says that every managed frame is either on the
stack of free frames and held by nothing, or off the stack with a reference count equal
to the number of its holders. Each primitive change of an entry keeps it.
-/

namespace Jkos

/-! ## Effects on single fields -/

namespace Kernel

open Page

variable (s : Kernel) (p q : Slot) (f : TableEntry → TableEntry)

@[simp] theorem page_setEntry_self : (s.setEntry p f).page p = f (s.page p) := if_pos rfl

variable {p q} in
theorem page_setEntry_of_ne (h : q ≠ p) : (s.setEntry p f).page q = s.page q := if_neg h

@[simp] theorem frames_setEntry : (s.setEntry p f).frames = s.frames := rfl

@[simp] theorem frameRefCnt_setEntry : (s.setEntry p f).frameRefCnt = s.frameRefCnt := rfl

@[simp] theorem tables_setEntry : (s.setEntry p f).tables = s.tables := rfl

@[simp] theorem emptyPage0_setEntry : (s.setEntry p f).emptyPage0 = s.emptyPage0 := rfl

@[simp] theorem emptyPage1_setEntry : (s.setEntry p f).emptyPage1 = s.emptyPage1 := rfl

end Kernel

namespace Page

open Exec

instance : Finite Slot := by
  apply Finite.of_injective (fun p : Slot => (p.table.toFin, p.idx.toFin))
  intro p q h
  cases p
  cases q
  simp only [Prod.mk.injEq, Slot.mk.injEq] at h ⊢
  exact ⟨BitVec.eq_of_toFin_eq h.1, BitVec.eq_of_toFin_eq h.2⟩

/-- An entry of an existing table, other than those of the scratch pages. -/
def Counted (s : Kernel) (p : Slot) : Prop :=
  p.table ∈ s.tables ∧ p ≠ s.emptyPage0 ∧ p ≠ s.emptyPage1

/-- The entries that hold a frame. -/
def holders (s : Kernel) (f : Frame) : Set Slot := {p | Counted s p ∧ (s.page p).addr = f}

/-- What `Page::init` fixes: the frames that the kernel hands out, the entries of the
identity map, which hold other frames and stay as they are, and the tables that every
directory links. -/
structure Layout where
  managed : Set Frame
  identity : Set Slot
  low : Nat
  table : BitVec 10 → Word

namespace Layout

variable (g : Layout)

/-- The index of a table that every directory links: of kernel code and data, or of the
kernel heap. -/
def Shared (i : BitVec 10) : Prop :=
  i.toNat < g.low ∨ (heapBeginIdx ≤ i.toNat ∧ i.toNat < heapEndIdx)

/-- The tables that every directory links. -/
def kernel : Set Word := {t | ∃ i, g.Shared i ∧ g.table i = t}

end Layout

/-- The accounting of frames. -/
structure FrameInv (g : Layout) (s : Kernel) : Prop where
  nodup : s.frames.Nodup
  free : ∀ f ∈ s.frames, f ∈ g.managed
  zero : 0 ∉ g.managed
  aligned : ∀ t ∈ s.tables, 4096 ∣ t.toNat
  entry : ∀ p, Counted s p → p ∉ g.identity → (s.page p).addr = 0 ∨ (s.page p).addr ∈ g.managed
  identity : ∀ p ∈ g.identity, p.table ∈ s.tables ∧ (s.page p).addr ∉ g.managed ∧
    (s.page p).allocable = false
  onStack : ∀ f ∈ s.frames, holders s f = ∅
  offStack : ∀ f ∈ g.managed, f ∉ s.frames →
    (holders s f).Nonempty ∧ (s.frameRefCnt f).toNat = (holders s f).ncard
  apart0 : s.emptyPage0 ∉ g.identity
  apart1 : s.emptyPage1 ∉ g.identity

variable {g : Layout} {s s' : Kernel} {p q : Slot} {f : Frame}

/-- There are fewer entries than a reference count can express. -/
theorem FrameInv.card_lt (h : FrameInv g s) (f : Frame) : (holders s f).ncard < 2 ^ 31 := by
  have hinj : Set.InjOn (fun p : Slot => ((⟨p.table.toNat / 4096, by have := p.table.isLt; omega⟩ :
      Fin (2 ^ 20)), p.idx.toFin)) (holders s f) := by
    intro p hp q hq e
    simp only [Prod.mk.injEq, Fin.mk.injEq] at e
    have hp' := h.aligned _ hp.1.1
    have hq' := h.aligned _ hq.1.1
    have htable : p.table = q.table := BitVec.eq_of_toNat_eq (by omega)
    cases p
    cases q
    simp only [Slot.mk.injEq]
    exact ⟨htable, BitVec.eq_of_toFin_eq e.2⟩
  have hle := Set.ncard_le_ncard_of_injOn _ (t := Set.univ) (fun _ _ => Set.mem_univ _) hinj
  rw [Set.ncard_univ, Nat.card_eq_fintype_card, Fintype.card_prod, Fintype.card_fin,
    Fintype.card_fin] at hle
  omega

theorem counted_setEntry {h : TableEntry → TableEntry} :
    Counted (s.setEntry q h) p ↔ Counted s p := Iff.rfl

/-- Entries whose frame number stays are held by the same frame. -/
theorem holders_setEntry_of_eq {h : TableEntry → TableEntry}
    (hh : (h (s.page q)).addr = (s.page q).addr) (f : Frame) :
    holders (s.setEntry q h) f = holders s f := by
  ext p
  rcases eq_or_ne p q with rfl | hp
  · simp only [holders, Set.mem_ofPred_eq, counted_setEntry, Kernel.page_setEntry_self, hh]
  · simp only [holders, Set.mem_ofPred_eq, counted_setEntry, Kernel.page_setEntry_of_ne s h hp]

/-- The entry becomes a holder of its new frame. -/
theorem holders_setEntry_new {h : TableEntry → TableEntry} (hq : Counted s q)
    (hf : (h (s.page q)).addr = f) : holders (s.setEntry q h) f = insert q (holders s f) := by
  ext p
  rcases eq_or_ne p q with rfl | hp
  · simp [holders, counted_setEntry, hq, hf]
  · simp [holders, counted_setEntry, Kernel.page_setEntry_of_ne s h hp, hp]

/-- The entry no longer holds a frame that it does not carry. -/
theorem holders_setEntry_old {h : TableEntry → TableEntry} (hf : (h (s.page q)).addr ≠ f) :
    holders (s.setEntry q h) f = holders s f \ {q} := by
  ext p
  rcases eq_or_ne p q with rfl | hp
  · simp [holders, hf]
  · simp [holders, counted_setEntry, Kernel.page_setEntry_of_ne s h hp, hp]

/-- An entry that cannot be counted is no holder. -/
theorem holders_setEntry_uncounted {h : TableEntry → TableEntry} (hq : ¬ Counted s q)
    (f : Frame) : holders (s.setEntry q h) f = holders s f := by
  ext p
  rcases eq_or_ne p q with rfl | hp
  · simp [holders, counted_setEntry, hq]
  · simp [holders, counted_setEntry, Kernel.page_setEntry_of_ne s h hp]

namespace FrameInv

theorem congr (h : FrameInv g s) (hframes : s'.frames = s.frames)
    (href : s'.frameRefCnt = s.frameRefCnt) (hpage : s'.page = s.page)
    (htables : s'.tables = s.tables) (h0 : s'.emptyPage0 = s.emptyPage0)
    (h1 : s'.emptyPage1 = s.emptyPage1) : FrameInv g s' := by
  have hcounted : ∀ p, Counted s' p ↔ Counted s p := fun p => by
    rw [Counted, Counted, htables, h0, h1]
  have hholders : holders s' = holders s := by
    ext f p
    simp only [holders, Set.mem_ofPred_eq, hcounted, hpage]
  refine ⟨hframes ▸ h.nodup, hframes ▸ h.free, h.zero, htables ▸ h.aligned, fun p hp => ?_,
    fun p hp => ?_, hframes ▸ hholders ▸ h.onStack, ?_, h0 ▸ h.apart0, h1 ▸ h.apart1⟩
  · rw [hpage]
    exact h.entry p ((hcounted p).mp hp)
  · rw [hpage, htables]
    exact h.identity p hp
  · rw [hframes, href, hholders]
    exact h.offStack

/-- Changing only the flags of an entry. -/
theorem setFlags (h : FrameInv g s) {m : TableEntry → TableEntry}
    (haddr : (m (s.page q)).addr = (s.page q).addr)
    (hid : q ∈ g.identity → (m (s.page q)).allocable = false) :
    FrameInv g (s.setEntry q m) := by
  have hpage : ∀ p, ((s.setEntry q m).page p).addr = (s.page p).addr := by
    intro p
    rcases eq_or_ne p q with rfl | hp
    · rw [Kernel.page_setEntry_self, haddr]
    · rw [Kernel.page_setEntry_of_ne s m hp]
  have hholders := holders_setEntry_of_eq haddr
  refine ⟨h.nodup, h.free, h.zero, h.aligned, fun p hp => ?_, fun p hp => ?_, fun f hf => ?_,
    fun f hf hnot => ?_, h.apart0, h.apart1⟩
  · rw [hpage]
    exact h.entry p (counted_setEntry.mp hp)
  · refine ⟨(h.identity p hp).1, by rw [hpage]; exact (h.identity p hp).2.1, ?_⟩
    rcases eq_or_ne p q with rfl | hne
    · rw [Kernel.page_setEntry_self]
      exact hid hp
    · rw [Kernel.page_setEntry_of_ne s m hne]
      exact (h.identity p hp).2.2
  · rw [hholders]
    exact h.onStack f hf
  · rw [hholders]
    exact h.offStack f hf hnot

/-- Pointing a scratch page at a frame. -/
theorem setScratch (h : FrameInv g s) (hq : q = s.emptyPage0 ∨ q = s.emptyPage1) (f : Frame) :
    FrameInv g (s.setEntry q ({ · with addr := f })) := by
  have hnot : ¬ Counted s q := by
    rcases hq with rfl | rfl
    · exact fun hc => hc.2.1 rfl
    · exact fun hc => hc.2.2 rfl
  have hid : q ∉ g.identity := by
    rcases hq with rfl | rfl
    · exact h.apart0
    · exact h.apart1
  have hother : ∀ p, p ≠ q → (s.setEntry q ({ · with addr := f })).page p = s.page p :=
    fun p hp => Kernel.page_setEntry_of_ne s _ hp
  have hholders := fun f' => holders_setEntry_uncounted (h := ({ · with addr := f })) hnot f'
  refine ⟨h.nodup, h.free, h.zero, h.aligned, fun p hp => ?_, fun p hp => ?_, fun f hf => ?_,
    fun f hf hf' => ?_, h.apart0, h.apart1⟩
  · have hp' := counted_setEntry.mp hp
    rw [hother p (fun e => hnot (e ▸ hp'))]
    exact h.entry p hp'
  · rw [hother p (fun e => hid (e ▸ hp))]
    exact h.identity p hp
  · rw [hholders]
    exact h.onStack f hf
  · rw [hholders]
    exact h.offStack f hf hf'

/-- A counted entry without a frame takes the top of the stack. -/
theorem take (h : FrameInv g s) {rest : List Frame} (hframes : s.frames = f :: rest)
    (hq : Counted s q) (hid : q ∉ g.identity) (hzero : (s.page q).addr = 0)
    {m : TableEntry → TableEntry} (hm : (m (s.page q)).addr = f) :
    FrameInv g ((({ s with frames := rest } : Kernel).setRef f 1).setEntry q m) := by
  have hf : f ∈ s.frames := by simp [hframes]
  have hnodup := h.nodup
  rw [hframes, List.nodup_cons] at hnodup
  have hf0 : f ≠ 0 := fun e => h.zero (e ▸ h.free f hf)
  set s₁ := ({ s with frames := rest } : Kernel).setRef f 1 with hs₁
  have hempty : holders s₁ f = ∅ := h.onStack f hf
  have hnew : holders (s₁.setEntry q m) f = {q} := by
    rw [holders_setEntry_new (s := s₁) hq hm, hempty]
    simp
  have hother : ∀ f', f' ≠ f → f' ≠ 0 → holders (s₁.setEntry q m) f' = holders s f' := by
    intro f' hne hne0
    rw [holders_setEntry_old (by rw [show s₁.page q = s.page q from rfl, hm]; exact hne.symm)]
    exact Set.sdiff_singleton_eq_self (s := holders s f')
      fun hmem => hne0 (hmem.2.symm.trans hzero)
  refine ⟨hnodup.2, fun f' hf' => h.free f' (hframes ▸ List.mem_cons_of_mem f hf'), h.zero,
    h.aligned, fun p hp hpid => ?_, fun p hp => ?_, fun f' hf' => ?_, fun f' hf' hnot => ?_,
    h.apart0, h.apart1⟩
  · rcases eq_or_ne p q with rfl | hne
    · rw [Kernel.page_setEntry_self, show s₁.page p = s.page p from rfl, hm]
      exact .inr (h.free f hf)
    · rw [Kernel.page_setEntry_of_ne s₁ m hne]
      exact h.entry p hp hpid
  · rw [Kernel.page_setEntry_of_ne s₁ m (fun e : p = q => hid (e ▸ hp))]
    exact h.identity p hp
  · have hrest : f' ∈ rest := hf'
    have hmem : f' ∈ s.frames := by simp [hframes, hrest]
    have hne : f' ≠ f := fun e => hnodup.1 (e ▸ hrest)
    rw [hother f' hne (fun e => h.zero (e ▸ h.free f' hmem))]
    exact h.onStack f' hmem
  · rcases eq_or_ne f' f with rfl | hne
    · rw [hnew]
      refine ⟨Set.singleton_nonempty q, ?_⟩
      rw [Set.ncard_singleton]
      change (if f' = f' then (1 : Word) else _).toNat = 1
      rw [if_pos rfl]
      rfl
    · rw [hother f' hne (fun e => h.zero (e ▸ hf'))]
      have hnot' : f' ∉ s.frames := by
        rw [hframes, List.mem_cons, not_or]
        exact ⟨hne, hnot⟩
      have href : (s₁.setEntry q m).frameRefCnt f' = s.frameRefCnt f' := if_neg hne
      rw [href]
      exact h.offStack f' hf' hnot'

/-- A counted entry gives up its frame: what is left to show is that the frame itself is
accounted for. -/
theorem clear (h : FrameInv g s) {t : Kernel} (hpage : t.page = s.page)
    (htables : t.tables = s.tables) (h0 : t.emptyPage0 = s.emptyPage0)
    (h1 : t.emptyPage1 = s.emptyPage1) (hq : Counted s q) (hid : q ∉ g.identity)
    (hf : (s.page q).addr = f) (hf0 : f ≠ 0) (href : ∀ f' ≠ f, t.frameRefCnt f' = s.frameRefCnt f')
    {m : TableEntry → TableEntry} (hm : (m (s.page q)).addr = 0)
    (hcase : (t.frames = s.frames ∧ (holders s f \ {q}).Nonempty ∧
        (t.frameRefCnt f).toNat = (holders s f \ {q}).ncard) ∨
      (t.frames = f :: s.frames ∧ holders s f \ {q} = ∅)) :
    FrameInv g (t.setEntry q m) := by
  have hcounted : ∀ p, Counted t p ↔ Counted s p := fun p => by
    rw [Counted, Counted, htables, h0, h1]
  have hmanaged : f ∈ g.managed := by
    rcases h.entry q hq hid with e | hmem
    · exact absurd (hf.symm.trans e) hf0
    · exact hf ▸ hmem
  have hoff : f ∉ s.frames := by
    intro hmem
    have hholds : q ∈ holders s f := ⟨hq, hf⟩
    rw [h.onStack f hmem] at hholds
    exact hholds
  have hclear : ∀ f', f' ≠ 0 → holders (t.setEntry q m) f' = holders s f' \ {q} := by
    intro f' hf'
    rw [holders_setEntry_old (by rw [hpage, hm]; exact hf'.symm)]
    ext p
    simp only [holders, hpage, hcounted, Set.mem_sdiff, Set.mem_ofPred_eq]
  have hother : ∀ f', f' ≠ f → f' ≠ 0 → holders (t.setEntry q m) f' = holders s f' := by
    intro f' hne hf'
    rw [hclear f' hf']
    exact Set.sdiff_singleton_eq_self fun hmem => hne (hmem.2.symm.trans hf)
  have hzero : ∀ f' ∈ g.managed, f' ≠ 0 := fun f' hf' e => h.zero (e ▸ hf')
  have hframes : ∀ f', f' ∈ t.frames ↔ f' ∈ s.frames ∨ (t.frames = f :: s.frames ∧ f' = f) := by
    intro f'
    rcases hcase with ⟨e, -⟩ | ⟨e, -⟩
    · rw [e]
      simp
    · rw [e, List.mem_cons]
      tauto
  refine ⟨?_, fun f' hf' => ?_, h.zero, htables ▸ h.aligned, fun p hp hpid => ?_, fun p hp => ?_,
    fun f' hf' => ?_, fun f' hf' hnot => ?_, h0 ▸ h.apart0, h1 ▸ h.apart1⟩
  · rcases hcase with ⟨e, -⟩ | ⟨e, -⟩
    · exact e ▸ h.nodup
    · exact e ▸ List.nodup_cons.mpr ⟨hoff, h.nodup⟩
  · rcases (hframes f').mp hf' with hmem | ⟨-, rfl⟩
    · exact h.free f' hmem
    · exact hmanaged
  · rcases eq_or_ne p q with rfl | hne
    · rw [Kernel.page_setEntry_self, hpage, hm]
      exact .inl rfl
    · rw [Kernel.page_setEntry_of_ne t m hne, hpage]
      exact h.entry p ((hcounted p).mp hp) hpid
  · rw [Kernel.page_setEntry_of_ne t m (fun e : p = q => hid (e ▸ hp)), hpage,
      Kernel.tables_setEntry, htables]
    exact h.identity p hp
  · rcases (hframes f').mp hf' with hmem | ⟨e, rfl⟩
    · rw [hother f' (fun e => hoff (e ▸ hmem)) (hzero f' (h.free f' hmem))]
      exact h.onStack f' hmem
    · rw [hclear f' hf0]
      rcases hcase with ⟨e', -⟩ | ⟨-, hempty⟩
      · exact absurd (e'.symm.trans e) (by simp)
      · exact hempty
  · have hnot' : f' ∉ s.frames := fun hmem => hnot ((hframes f').mpr (.inl hmem))
    rcases eq_or_ne f' f with rfl | hne
    · rcases hcase with ⟨-, hsome, hcount⟩ | ⟨e, -⟩
      · rw [hclear f' hf0]
        exact ⟨hsome, hcount⟩
      · exact absurd ((hframes f').mpr (.inr ⟨e, rfl⟩)) hnot
    · rw [hother f' hne (hzero f' hf'), Kernel.frameRefCnt_setEntry, href f' hne]
      exact h.offStack f' hf' hnot'

/-- The number of references to a frame that a counted entry holds. -/
theorem ref_eq (h : FrameInv g s) (hq : Counted s q) (hid : q ∉ g.identity)
    (hf : (s.page q).addr = f) (hf0 : f ≠ 0) :
    (s.frameRefCnt f).toNat = (holders s f).ncard ∧ 0 < (holders s f).ncard := by
  have hholds : q ∈ holders s f := ⟨hq, hf⟩
  have hmanaged : f ∈ g.managed := by
    rcases h.entry q hq hid with e | hmem
    · exact absurd (hf.symm.trans e) hf0
    · exact hf ▸ hmem
  have hoff : f ∉ s.frames := by
    intro hmem
    rw [h.onStack f hmem] at hholds
    exact hholds
  exact ⟨(h.offStack f hmanaged hoff).2, (Set.ncard_pos (Set.toFinite _)).mpr ⟨q, hholds⟩⟩

theorem toNat_pred {n : Word} (h : 0 < n.toNat) : (n - 1).toNat = n.toNat - 1 := by
  rw [BitVec.toNat_sub_of_le (by rw [BitVec.le_def]; exact h)]
  rfl

/-- A counted entry gives up its frame, which others still hold. -/
theorem unshare (h : FrameInv g s) (hq : Counted s q) (hid : q ∉ g.identity)
    (hf : (s.page q).addr = f) (hf0 : f ≠ 0) (hmany : s.frameRefCnt f ≠ 1)
    {m : TableEntry → TableEntry} (hm : (m (s.page q)).addr = 0) :
    FrameInv g ((s.setRef f (s.frameRefCnt f - 1)).setEntry q m) := by
  obtain ⟨href, hpos⟩ := h.ref_eq hq hid hf hf0
  have hcard : (holders s f \ {q}).ncard = (holders s f).ncard - 1 :=
    Set.ncard_sdiff_singleton_of_mem ⟨hq, hf⟩
  have htwo : (holders s f).ncard ≠ 1 := by
    intro e
    rw [e] at href
    exact hmany (Word.ext_toNat href)
  refine h.clear (t := s.setRef f (s.frameRefCnt f - 1)) rfl rfl rfl rfl hq hid hf hf0
    (fun f' hne => if_neg hne) hm (.inl ⟨rfl, ?_, ?_⟩)
  · rw [← Set.ncard_pos (Set.toFinite _), hcard]
    omega
  · have : (s.setRef f (s.frameRefCnt f - 1)).frameRefCnt f = s.frameRefCnt f - 1 := if_pos rfl
    rw [this, toNat_pred (by omega), hcard, href]

/-- A counted entry gives up its frame, of which it is the only holder. -/
theorem giveBack (h : FrameInv g s) (hq : Counted s q) (hid : q ∉ g.identity)
    (hf : (s.page q).addr = f) (hf0 : f ≠ 0) (hone : s.frameRefCnt f = 1) {n : Word}
    {m : TableEntry → TableEntry} (hm : (m (s.page q)).addr = 0) :
    FrameInv g (({ s.setRef f n with frames := f :: s.frames } : Kernel).setEntry q m) := by
  obtain ⟨href, -⟩ := h.ref_eq hq hid hf hf0
  refine h.clear (t := { s.setRef f n with frames := f :: s.frames }) rfl rfl rfl rfl hq hid hf
    hf0 (fun f' hne => if_neg hne) hm (.inr ⟨rfl, ?_⟩)
  rw [hone] at href
  obtain ⟨p, hp⟩ := Set.ncard_eq_one.mp href.symm
  have hq' : q ∈ holders s f := ⟨hq, hf⟩
  rw [hp] at hq' ⊢
  rw [Set.mem_singleton_iff.mp hq', Set.sdiff_self]

/-- A cleared table holds no frame. -/
theorem newTable (h : FrameInv g s) {t : Word} (ht : t ∉ s.tables) (hdvd : 4096 ∣ t.toNat) :
    FrameInv g (Page.newTable t s).2 := by
  set s' := (Page.newTable t s).2 with hs'
  have hpage : ∀ p, p.table ∈ s.tables → s'.page p = s.page p :=
    fun p hp => if_neg fun e : p.table = t => ht (e ▸ hp)
  have hnew : ∀ p, p.table = t → s'.page p = TableEntry.zero := fun p hp => if_pos hp
  have hcounted : ∀ p, Counted s' p → p.table = t ∨ Counted s p := by
    intro p hp
    rcases List.mem_cons.mp hp.1 with e | hmem
    · exact .inl e
    · exact .inr ⟨hmem, hp.2⟩
  have hholders : ∀ f ≠ 0, holders s' f = holders s f := by
    intro f hf
    ext p
    constructor
    · rintro ⟨hp, hpf⟩
      rcases hcounted p hp with e | hp'
      · rw [hnew p e] at hpf
        exact absurd hpf.symm hf
      · exact ⟨hp', by rwa [hpage p hp'.1] at hpf⟩
    · rintro ⟨hp, hpf⟩
      exact ⟨⟨List.mem_cons_of_mem t hp.1, hp.2⟩, by rwa [hpage p hp.1]⟩
  have hzero : ∀ f ∈ g.managed, f ≠ 0 := fun f hf e => h.zero (e ▸ hf)
  refine ⟨h.nodup, h.free, h.zero, fun t' ht' => ?_, fun p hp hid => ?_, fun p hp => ?_,
    fun f hf => ?_, fun f hf hnot => ?_, h.apart0, h.apart1⟩
  · rcases List.mem_cons.mp ht' with rfl | hmem
    · exact hdvd
    · exact h.aligned t' hmem
  · rcases hcounted p hp with e | hp'
    · rw [hnew p e]
      exact .inl rfl
    · rw [hpage p hp'.1]
      exact h.entry p hp' hid
  · have hp' := h.identity p hp
    rw [hpage p hp'.1]
    exact ⟨List.mem_cons_of_mem t hp'.1, hp'.2⟩
  · rw [hholders f (hzero f (h.free f hf))]
    exact h.onStack f hf
  · rw [hholders f (hzero f hf)]
    exact h.offStack f hf hnot

/-- A counted entry without a frame joins the holders of a frame. -/
theorem share (h : FrameInv g s) (hp : Counted s p) (hpid : p ∉ g.identity)
    (hf : (s.page p).addr = f) (hf0 : f ≠ 0) (hq : Counted s q) (hid : q ∉ g.identity)
    (hzero : (s.page q).addr = 0) {m : TableEntry → TableEntry} (hm : (m (s.page q)).addr = f) :
    FrameInv g ((s.setEntry q m).setRef f (s.frameRefCnt f + 1)) := by
  obtain ⟨href, hpos⟩ := h.ref_eq hp hpid hf hf0
  have hmanaged := (h.entry p hp hpid).resolve_left (fun e => hf0 (hf.symm.trans e))
  rw [hf] at hmanaged
  have hnot : f ∉ s.frames := by
    intro hmem
    have : p ∈ holders s f := ⟨hp, hf⟩
    rw [h.onStack f hmem] at this
    exact this
  set s' := (s.setEntry q m).setRef f (s.frameRefCnt f + 1) with hs'
  have hnew : holders s' f = insert q (holders s f) := holders_setEntry_new hq hm
  have hother : ∀ f', f' ≠ f → f' ≠ 0 → holders s' f' = holders s f' := by
    intro f' hne hne0
    have hold : holders s' f' = holders s f' \ {q} :=
      holders_setEntry_old (s := s) (h := m) (by rw [hm]; exact hne.symm)
    rw [hold]
    exact Set.sdiff_singleton_eq_self fun hmem => hne0 (hmem.2.symm.trans hzero)
  have hnz : ∀ f' ∈ g.managed, f' ≠ 0 := fun f' hf' e => h.zero (e ▸ hf')
  refine ⟨h.nodup, h.free, h.zero, h.aligned, fun r hr hrid => ?_, fun r hr => ?_,
    fun f' hf' => ?_, fun f' hf' hoff => ?_, h.apart0, h.apart1⟩
  · rcases eq_or_ne r q with rfl | hne
    · refine .inr ?_
      change ((s.setEntry r m).page r).addr ∈ g.managed
      rw [Kernel.page_setEntry_self, hm]
      exact hmanaged
    · change ((s.setEntry q m).page r).addr = 0 ∨ ((s.setEntry q m).page r).addr ∈ g.managed
      rw [Kernel.page_setEntry_of_ne s m hne]
      exact h.entry r hr hrid
  · change r.table ∈ s.tables ∧ ((s.setEntry q m).page r).addr ∉ g.managed ∧
      ((s.setEntry q m).page r).allocable = false
    rw [Kernel.page_setEntry_of_ne s m (fun e : r = q => hid (e ▸ hr))]
    exact h.identity r hr
  · rw [hother f' (fun e => hnot (e ▸ hf')) (hnz f' (h.free f' hf'))]
    exact h.onStack f' hf'
  · rcases eq_or_ne f' f with rfl | hne
    · rw [hnew]
      refine ⟨Set.insert_nonempty q _, ?_⟩
      have hfresh : q ∉ holders s f' := fun hmem => hf0 (hmem.2.symm.trans hzero)
      have hlt := h.card_lt f'
      rw [Set.ncard_insert_of_notMem hfresh (Set.toFinite _), ← href]
      change (if f' = f' then s.frameRefCnt f' + 1 else _).toNat = _
      rw [if_pos rfl, BitVec.toNat_add]
      exact Nat.mod_eq_of_lt (by rw [href]; change _ + 1 < 2 ^ 32; omega)
    · rw [hother f' hne (hnz f' hf')]
      have href' : s'.frameRefCnt f' = s.frameRefCnt f' := if_neg hne
      rw [href']
      exact h.offStack f' hf' hoff

end FrameInv

end Page

end Jkos
