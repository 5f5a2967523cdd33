import Jkos.Page.Fault
import Jkos.Kheap.Partition

/-!
# Directories and their tables

`Linked` describes the tables of all directories: those of the kernel are common, every
other table belongs to one index of one directory. With it, an address and a directory
determine the entry, and entries of the kernel heap are never those of a user page.
-/

namespace Jkos.Page

open Exec Kheap

/-! ## Parts of an address -/

theorem toNat_tbIdx (addr : Word) : (tbIdx addr).toNat = addr.toNat / 2 ^ 22 := by
  have hlt := addr.isLt
  rw [tbIdx, BitVec.toNat_setWidth, BitVec.toNat_ushiftRight, Nat.shiftRight_eq_div_pow]
  omega

theorem toNat_tbOffset (addr : Word) : (tbOffset addr).toNat = addr.toNat / 4096 % 1024 := by
  rw [tbOffset, BitVec.toNat_setWidth, BitVec.toNat_ushiftRight, Nat.shiftRight_eq_div_pow]

theorem toNat_pageOffset (addr : Word) : (pageOffset addr).toNat = addr.toNat % 4096 := by
  rw [pageOffset, BitVec.toNat_setWidth]

theorem heapBeginIdx_eq : heapBeginIdx = 959 := by decide

theorem heapEndIdx_eq : heapEndIdx = 1023 := by decide

/-- The table and the entry determine the page. -/
theorem pageOf_eq_of_idx {a b : Word} (hidx : tbIdx a = tbIdx b) (hoff : tbOffset a = tbOffset b) :
    pageOf a = pageOf b := by
  have h₁ := congrArg BitVec.toNat hidx
  have h₂ := congrArg BitVec.toNat hoff
  rw [toNat_tbIdx, toNat_tbIdx] at h₁
  rw [toNat_tbOffset, toNat_tbOffset] at h₂
  apply Word.ext_toNat
  rw [toNat_pageOf, toNat_pageOf]
  omega

theorem eq_of_pageOf {a b : Word} (hpage : pageOf a = pageOf b)
    (hoff : pageOffset a = pageOffset b) : a = b := by
  have h₁ := congrArg BitVec.toNat hpage
  have h₂ := congrArg BitVec.toNat hoff
  rw [toNat_pageOf, toNat_pageOf] at h₁
  rw [toNat_pageOffset, toNat_pageOffset] at h₂
  apply Word.ext_toNat
  omega

/-- Addresses of one page have the same entry. -/
theorem idx_eq_of_pageOf {a b : Word} (hpage : pageOf a = pageOf b) :
    tbIdx a = tbIdx b ∧ tbOffset a = tbOffset b := by
  have h₁ := congrArg BitVec.toNat hpage
  rw [toNat_pageOf, toNat_pageOf] at h₁
  refine ⟨BitVec.eq_of_toNat_eq ?_, BitVec.eq_of_toNat_eq ?_⟩
  · rw [toNat_tbIdx, toNat_tbIdx]
    omega
  · rw [toNat_tbOffset, toNat_tbOffset]
    omega

/-- An address of the kernel heap. -/
def HeapAddr (a : Word) : Prop := 0xEFC00000 ≤ a.toNat ∧ a.toNat < 0xFFC00000

theorem HeapAddr.idx {a : Word} (h : HeapAddr a) :
    heapBeginIdx ≤ (tbIdx a).toNat ∧ (tbIdx a).toNat < heapEndIdx := by
  rw [toNat_tbIdx, heapBeginIdx_eq, heapEndIdx_eq]
  have h₁ := h.1
  have h₂ := h.2
  omega

/-- A page of the identity map: `[0x1000, kheap_get_size_pre_init())`. -/
def IdentityPage (s : Kernel) (a : Word) : Prop :=
  0x1000 ≤ a.toNat ∧ (pageOf a).toNat < s.kheapStaticEnd.toNat

/-- One of the two scratch pages. -/
def ScratchPage (s : Kernel) (a : Word) : Prop :=
  pageOf a = s.emptyPage0Addr ∨ pageOf a = s.emptyPage1Addr

/-! ## The tables of all directories -/

/-- The entry of an address in the tables that every directory links. -/
def Layout.slot (g : Layout) (a : Word) : Slot := ⟨g.table (tbIdx a), tbOffset a⟩

/-- The entry of a scratch page, once it is there, is the entry of its address. -/
def ScratchSlot (g : Layout) (s : Kernel) (p : Slot) (a : Word) : Prop :=
  p.table ∈ s.tables → p = g.slot a ∧ HeapAddr a ∧ pageOf a = a

/-- The other tables of the directories `D` belong to one index of one directory each. -/
structure OwnTables (g : Layout) (s : Kernel) (D : List Word) : Prop where
  own : ∀ d ∈ D, ∀ i, ¬ g.Shared i → (s.dir d).tables i ≠ null →
    (s.dir d).tables i ∈ s.tables ∧ (s.dir d).tables i ∉ g.kernel
  unique : ∀ d ∈ D, ∀ d' ∈ D, ∀ i j, ¬ g.Shared i → ¬ g.Shared j →
    (s.dir d).tables i ≠ null → (s.dir d).tables i = (s.dir d').tables j → d = d' ∧ i = j

structure Linked (g : Layout) (s : Kernel) : Prop where
  finished : s.initFinished = true
  heapReady : s.kheapFinishInit = true
  code : s.kernelCodeEnd ≠ 0
  low : s.kernelLowNtable = g.low
  lowLe : g.low ≤ heapBeginIdx
  current : s.currentPageDir ∈ s.dirs
  kernel : ∀ i, g.Shared i → g.table i ∈ s.tables ∧ g.table i ≠ null
  inj : ∀ i j, g.Shared i → g.Shared j → g.table i = g.table j → i = j
  shared : ∀ d ∈ s.dirs, ∀ i, g.Shared i → (s.dir d).tables i = g.table i
  owned : OwnTables g s s.dirs
  identity : ∀ p ∈ g.identity, ∃ a, IdentityPage s a ∧ (tbIdx a).toNat < g.low ∧ p = g.slot a
  scratch0 : ScratchSlot g s s.emptyPage0 s.emptyPage0Addr
  scratch1 : ScratchSlot g s s.emptyPage1 s.emptyPage1Addr

namespace Linked

variable {g : Layout} {s : Kernel} {p : Slot} {d d' a b : Word}

/-- Entries of a directory are in existing tables. -/
theorem lookup_mem (h : Linked g s) (hd : d ∈ s.dirs) (hlook : lookup s d a = some p) :
    p.table ∈ s.tables ∧ p = ⟨(s.dir d).tables (tbIdx a), tbOffset a⟩ ∧
      (s.dir d).tables (tbIdx a) ≠ null := by
  rw [lookup] at hlook
  split at hlook
  · cases hlook
  · next hne =>
      have hp : p = ⟨(s.dir d).tables (tbIdx a), tbOffset a⟩ := (Option.some.inj hlook).symm
      refine ⟨?_, hp, hne⟩
      rw [hp]
      by_cases hi : g.Shared (tbIdx a)
      · change (s.dir d).tables (tbIdx a) ∈ s.tables
        rw [h.shared d hd _ hi]
        exact (h.kernel _ hi).1
      · exact (h.owned.own d hd _ hi hne).1

/-- An entry in a table of the kernel is that of a kernel address. -/
theorem lookup_kernel (h : Linked g s) (hd : d ∈ s.dirs) (hlook : lookup s d a = some p)
    (hk : p.table ∈ g.kernel) : g.Shared (tbIdx a) ∧ p = g.slot a := by
  obtain ⟨-, hp, hne⟩ := h.lookup_mem hd hlook
  by_cases hi : g.Shared (tbIdx a)
  · exact ⟨hi, by rw [hp, Layout.slot, h.shared d hd _ hi]⟩
  · rw [hp] at hk
    exact absurd hk (h.owned.own d hd _ hi hne).2

/-- A kernel address has an entry in every directory. -/
theorem lookup_shared (h : Linked g s) (hd : d ∈ s.dirs) (hi : g.Shared (tbIdx a)) :
    lookup s d a = some (g.slot a) := by
  rw [lookup, h.shared d hd _ hi, if_neg (h.kernel _ hi).2]
  rfl

theorem shared_of_heap (h : HeapAddr a) : g.Shared (tbIdx a) := .inr h.idx

theorem lookup_heap (h : Linked g s) (hd : d ∈ s.dirs) (ha : HeapAddr a) :
    lookup s d a = some (g.slot a) ∧ (g.slot a).table ∈ g.kernel :=
  ⟨h.lookup_shared hd (shared_of_heap ha), _, shared_of_heap ha, rfl⟩

/-- Two addresses of one directory have the same entry only if they are in one page. -/
theorem pageOf_eq_of_lookup (h : Linked g s) (hd : d ∈ s.dirs) (ha : lookup s d a = some p)
    (hb : lookup s d b = some p) : pageOf a = pageOf b := by
  obtain ⟨-, hpa, hne⟩ := h.lookup_mem hd ha
  obtain ⟨-, hpb, -⟩ := h.lookup_mem hd hb
  rw [hpa, Slot.mk.injEq] at hpb
  refine pageOf_eq_of_idx ?_ hpb.2
  by_cases hia : g.Shared (tbIdx a)
  · have hka : (s.dir d).tables (tbIdx a) = g.table (tbIdx a) := h.shared d hd _ hia
    by_cases hib : g.Shared (tbIdx b)
    · rw [hka, h.shared d hd _ hib] at hpb
      exact h.inj _ _ hia hib hpb.1
    · have hmem : (s.dir d).tables (tbIdx b) ∈ g.kernel := ⟨_, hia, by rw [← hpb.1, hka]⟩
      exact absurd hmem (h.owned.own d hd _ hib (hpb.1 ▸ hne)).2
  · by_cases hib : g.Shared (tbIdx b)
    · have hmem : (s.dir d).tables (tbIdx a) ∈ g.kernel :=
        ⟨_, hib, by rw [hpb.1, h.shared d hd _ hib]⟩
      exact absurd hmem (h.owned.own d hd _ hia hne).2
    · exact (h.owned.unique d hd d hd _ _ hia hib hne hpb.1).2

/-- The entry of a shared index is that of every address of the page. -/
theorem slot_inj (h : Linked g s) (hia : g.Shared (tbIdx a)) (hib : g.Shared (tbIdx b))
    (he : g.slot a = g.slot b) : pageOf a = pageOf b := by
  rw [Layout.slot, Layout.slot, Slot.mk.injEq] at he
  exact pageOf_eq_of_idx (h.inj _ _ hia hib he.1) he.2

/-- Pages other than the scratch pages have counted entries. -/
theorem counted (h : Linked g s) (hd : d ∈ s.dirs) (hlook : lookup s d a = some p)
    (hscratch : ¬ ScratchPage s a) : Counted s p := by
  obtain ⟨hmem, -, -⟩ := h.lookup_mem hd hlook
  have hscr : ∀ {q : Slot} {b : Word}, ScratchSlot g s q b → p = q → pageOf a = b := by
    rintro q b hq rfl
    obtain ⟨hslot, hb, halign⟩ := hq hmem
    have hib : g.Shared (tbIdx b) := shared_of_heap hb
    obtain ⟨hia, hp⟩ := h.lookup_kernel hd hlook ⟨_, hib, by rw [hslot, Layout.slot]⟩
    exact (h.slot_inj hia hib (hp.symm.trans hslot)).trans halign
  exact ⟨hmem, fun e => hscratch (.inl (hscr h.scratch0 e)),
    fun e => hscratch (.inr (hscr h.scratch1 e))⟩

/-- Pages outside the identity map and the scratch pages have editable entries. -/
theorem editable (h : Linked g s) (hd : d ∈ s.dirs) (hlook : lookup s d a = some p)
    (hid : ¬ IdentityPage s a) (hscratch : ¬ ScratchPage s a) : Editable g s p := by
  refine ⟨h.counted hd hlook hscratch, fun hmem' => hid ?_⟩
  obtain ⟨b, hb, hlow, hslot⟩ := h.identity p hmem'
  have hib : g.Shared (tbIdx b) := .inl hlow
  obtain ⟨hia, hp⟩ := h.lookup_kernel hd hlook ⟨_, hib, by rw [hslot, Layout.slot]⟩
  have hpage := h.slot_inj hia hib (hp.symm.trans hslot)
  refine ⟨?_, by rw [hpage]; exact hb.2⟩
  have hnat := congrArg BitVec.toNat hpage
  rw [toNat_pageOf, toNat_pageOf] at hnat
  have := hb.1
  omega

end Linked

end Jkos.Page
