import Jkos.Page.Tables

/-!
# Reading and writing memory

Accesses through the tables of the current directory, as seen from addresses: a write
changes one byte of one directory, and what another address shows stays the same as long
as writable pages do not share frames.
-/

namespace Jkos.Page

open Exec

variable {g : Layout} {c : Prop} {K : Set Slot} {s s' s'' : Kernel} {p q : Slot}

/-- The byte that an address of a directory shows, if that is known. -/
def peek (s : Kernel) (d a : Word) : Option Byte :=
  (lookup s d a).bind fun p => (view s p).map (· (pageOffset a))

/-- The address has an editable entry in the directory. -/
def Plain (g : Layout) (s : Kernel) (d a : Word) : Prop :=
  ∃ p, lookup s d a = some p ∧ Editable g s p

/-- Copying needs two scratch pages, which `Page::init` sets up before there are user
pages. -/
def Copyable (s : Kernel) (p : Slot) : Prop :=
  (s.page p).user = true → s.emptyPage0 ≠ s.emptyPage1

/-- The address is open to accesses of this kind. -/
def Ready (g : Layout) (s : Kernel) (a : Word) (write : Bool) (eip : Word) : Prop :=
  ∃ p, lookup s s.currentPageDir a = some p ∧ Editable g s p ∧ Granted s p write eip ∧
    Copyable s p

theorem Linked.congr (h : Linked g s) (hrest : s'.rest = s.rest) : Linked g s' := by
  have h' : Linked g s.rest :=
    ⟨h.finished, h.heapReady, h.code, h.low, h.lowLe, h.current, h.kernel, h.inj, h.shared,
      ⟨h.owned.own, h.owned.unique⟩, h.identity, h.scratch0, h.scratch1⟩
  rw [← hrest] at h'
  exact ⟨h'.finished, h'.heapReady, h'.code, h'.low, h'.lowLe, h'.current, h'.kernel, h'.inj,
    h'.shared, ⟨h'.owned.own, h'.owned.unique⟩, h'.identity, h'.scratch0, h'.scratch1⟩

theorem Work.scratchPage_iff (h : Work g c K s s') (a : Word) :
    ScratchPage s' a ↔ ScratchPage s a := by
  have h0 : s'.emptyPage0Addr = s.emptyPage0Addr := (congrArg Kernel.emptyPage0Addr h.rest :)
  have h1 : s'.emptyPage1Addr = s.emptyPage1Addr := (congrArg Kernel.emptyPage1Addr h.rest :)
  rw [ScratchPage, ScratchPage, h0, h1]

/-! ## Accesses keep pages open -/

variable (g c K) in
/-- Work after which every page is open to whoever it was open to. -/
structure Touch (s s' : Kernel) : Prop where
  work : Work g c K s s'
  granted : ∀ q, Editable g s q → ∀ write eip, Granted s q write eip → Granted s' q write eip
  user : ∀ q, Editable g s q → (s'.page q).user = (s.page q).user
  held : ∀ q, Editable g s q → (s.page q).addr ≠ 0 → (s'.page q).addr ≠ 0
  /-- Only user pages are ever copied. -/
  fixed : ∀ q, Editable g s q → (s.page q).user = false → (s.page q).addr ≠ 0 →
    (s'.page q).addr = (s.page q).addr

namespace Touch

theorem refl : Touch g c K s s :=
  ⟨.refl, fun _ _ _ _ h => h, fun _ _ => rfl, fun _ _ h => h, fun _ _ _ _ => rfl⟩

theorem trans (h : Touch g c K s s') (h' : Touch g c K s' s'') : Touch g c K s s'' :=
  ⟨h.work.trans h'.work, fun q hq write eip hgrant =>
    h'.granted q (h.work.steps.editable hq) write eip (h.granted q hq write eip hgrant),
    fun q hq => (h'.user q (h.work.steps.editable hq)).trans (h.user q hq),
    fun q hq hheld => h'.held q (h.work.steps.editable hq) (h.held q hq hheld),
    fun q hq huser hheld => (h'.fixed q (h.work.steps.editable hq) ((h.user q hq).trans huser)
      (h.held q hq hheld)).trans (h.fixed q hq huser hheld)⟩

theorem mono {K' : Set Slot} (h : Touch g c K s s') (hK : K ⊆ K') : Touch g c K' s s' :=
  ⟨h.work.mono hK, h.granted, h.user, h.held, h.fixed⟩

theorem copyable (h : Touch g c K s s') (hp : Editable g s p) (hcopy : Copyable s p) :
    Copyable s' p := by
  have h0 := (congrArg Kernel.emptyPage0 h.work.rest :)
  have h1 := (congrArg Kernel.emptyPage1 h.work.rest :)
  intro huser e
  rw [h.user p hp] at huser
  exact hcopy huser (h0.symm.trans (e.trans h1))

theorem ready (h : Touch g c K s s') {a eip : Word} {write : Bool}
    (ha : Ready g s a write eip) : Ready g s' a write eip := by
  obtain ⟨p, hlook, hp, hgrant, hcopy⟩ := ha
  refine ⟨p, ?_, h.work.steps.editable hp, h.granted p hp write eip hgrant, h.copyable hp hcopy⟩
  rw [h.work.lookup_eq, h.work.current_eq, hlook]

theorem plain (h : Touch g c K s s') {d a : Word} (ha : Plain g s d a) : Plain g s' d a := by
  obtain ⟨p, hlook, hp⟩ := ha
  exact ⟨p, by rw [h.work.lookup_eq, hlook], h.work.steps.editable hp⟩

end Touch

/-- Faults on a page leave it open. -/
theorem Accessed.touch {write : Bool} {f : Frame} (h : Accessed p write s f s')
    (hs : Sound g c s) (hp : Editable g s p) : Touch g c {p} s s' := by
  have hwork := h.faults.work (K := {p}) hs rfl hp
  have hheld : (s'.page p).addr ≠ 0 := h.addr ▸ h.held
  refine ⟨hwork, fun q hq write eip hgrant => ?_, fun q hq => ?_, fun q hq hq0 => ?_,
    fun q hq huser hq0 => ?_⟩
  · rcases eq_or_ne q p with rfl | hne
    · have huser := h.faults.user_eq hs hp
      refine ⟨⟨((hwork.steps.sound hs).shaped q (hwork.steps.editable hp)).2 hheld, ?_⟩,
        fun hw => ?_⟩
      · rw [huser, hwork.codeEnd_eq]
        exact hgrant.isOpen.2
      · rw [huser]
        exact (hgrant.writable hw).imp_left (h.faults.rw_mono hs hp)
    · have hpage := h.faults.page_other hs hp hq hne
      obtain ⟨hopen, hwritable⟩ := hgrant
      rw [Open, ← hpage, ← hwork.codeEnd_eq] at hopen
      rw [← hpage] at hwritable
      exact ⟨hopen, hwritable⟩
  · rcases eq_or_ne q p with rfl | hne
    · exact h.faults.user_eq hs hp
    · rw [h.faults.page_other hs hp hq hne]
  · rcases eq_or_ne q p with rfl | hne
    · exact hheld
    · rw [h.faults.page_other hs hp hq hne]
      exact hq0
  · rcases eq_or_ne q p with rfl | hne
    · rw [h.faults.eq_of_kernel huser hq0]
    · rw [h.faults.page_other hs hp hq hne]

section Bytes

variable {a eip : Word} (hs : Sound g c s) (hlook : lookup s s.currentPageDir a = some p)
  (hp : Editable g s p)
include hs hlook hp

/-- What writing one byte of a page does. -/
theorem writeByte_ends (v : Byte) (hgrant : Granted s p true eip) :
    Ends (writeByte a v eip) s
      (fun _ s' => Touch g c {p} s s' ∧ (s'.page p).addr ≠ 0 ∧ ∃ bytes,
        (Copyable s p → ∀ b, view s p = some b → bytes = b) ∧
        view s' p = some (fun o => if o = pageOffset a then v else bytes o))
      (fun e _ => e = .noFreeFrame) := by
  refine Ends.bind (access_ends hs hlook hp hgrant) ?_
  intro f s₁ hacc
  have htouch := hacc.touch hs hp
  have hs₁ := htouch.work.steps.sound hs
  have hp₁ := htouch.work.steps.editable hp
  have hheld : (s₁.page p).addr ≠ 0 := hacc.addr ▸ hacc.held
  have hview₁ : view s₁ p = some (s₁.phys f) := by
    rw [view, if_pos hheld, hacc.addr]
  change Touch g c {p} s (s₁.setByte f (pageOffset a) v) ∧ _
  have hsole : c → Sole g s₁ p := fun hc =>
    .inr (hs₁.exclusive hc p hp₁ hheld (.inl (hacc.writable rfl)))
  have hstep : Step g c {p} s₁ (s₁.setByte f (pageOffset a) v) := by
    rw [← hacc.addr]
    exact .write p _ rfl hp₁ hheld hsole
  refine ⟨htouch.trans ⟨.single hstep rfl, fun _ _ _ _ h => ⟨h.isOpen, h.writable⟩,
    fun _ _ => rfl, fun _ _ h => h, fun _ _ _ _ => rfl⟩, hheld, s₁.phys f,
    fun hne b hb => ?_, ?_⟩
  · have := hacc.faults.view_self hs hp hne hb
    rw [hview₁] at this
    exact Option.some.inj this
  · have hpage : (s₁.setByte f (pageOffset a) v).page p = s₁.page p := rfl
    rw [view, hpage, if_pos hheld, hacc.addr]
    exact congrArg some (if_pos rfl)

/-- What reading one byte of a page does. -/
theorem readByte_ends (hgrant : Granted s p false eip) :
    Ends (readByte a eip) s
      (fun v s' => Touch g c {p} s s' ∧ ∃ bytes, view s' p = some bytes ∧
        v = bytes (pageOffset a) ∧ (Copyable s p → ∀ b, view s p = some b → bytes = b))
      (fun e _ => e = .noFreeFrame) := by
  refine Ends.bind (access_ends hs hlook hp hgrant) ?_
  intro f s₁ hacc
  have htouch := hacc.touch hs hp
  have hheld : (s₁.page p).addr ≠ 0 := hacc.addr ▸ hacc.held
  have hview₁ : view s₁ p = some (s₁.phys f) := by
    rw [view, if_pos hheld, hacc.addr]
  refine ⟨htouch, s₁.phys f, hview₁, rfl, fun hne b hb => ?_⟩
  have := hacc.faults.view_self hs hp hne hb
  rw [hview₁] at this
  exact Option.some.inj this

/-- A page with a frame is read without a fault. -/
theorem readByte_of_held (hgrant : Granted s p false eip) (hheld : (s.page p).addr ≠ 0) :
    readByte a eip s = (.ok (s.phys (s.page p).addr (pageOffset a)), s) := by
  have hfuel : loopBound = (loopBound - 1) + 1 := by decide
  have hwalk := walk_of_held hs hlook hp hgrant hheld
  rw [if_neg (by simp)] at hwalk
  rw [readByte, access, hfuel, bind_ok (accessLoop_of_walk hwalk)]
  rfl

end Bytes

/-! ## Runs of bytes -/

/-- What pages outside the footprint show. -/
theorem Work.peek_eq (h : Work g c K s s') (hc : c) (hs : Sound g c s) {d b : Word}
    (hlook : lookup s d b = some q) (hq : Editable g s q) (hK : q ∉ K) :
    peek s' d b = peek s d b := by
  rw [peek, peek, h.lookup_eq, hlook]
  change (view s' q).map _ = (view s q).map _
  rw [h.steps.view_eq hc hs hq hK]

theorem peek_eq_some {d b : Word} {w : Byte} (hlook : lookup s d b = some q) :
    peek s d b = some w ↔ ∃ bytes, view s q = some bytes ∧ bytes (pageOffset b) = w := by
  rw [peek, hlook]
  change (view s q).map _ = some w ↔ _
  rw [Option.map_eq_some_iff]

/-- A write shows at its address and changes no byte elsewhere, in any directory. -/
theorem writeByte_peek {a eip : Word} (hs : Sound g c s)
    (hlook : lookup s s.currentPageDir a = some p) (hp : Editable g s p)
    (hgrant : Granted s p true eip) (hcopy : Copyable s p) (v : Byte) :
    Ends (writeByte a v eip) s
      (fun _ s' => Touch g c {p} s s' ∧ (s'.page p).addr ≠ 0 ∧
        peek s' s.currentPageDir a = some v ∧
        (c → ∀ d b q, lookup s d b = some q → Editable g s q →
          (q = p → pageOffset b ≠ pageOffset a) → ∀ w, peek s d b = some w → peek s' d b = some w))
      (fun e _ => e = .noFreeFrame) := by
  refine (writeByte_ends hs hlook hp v hgrant).mono ?_ (fun _ _ h => h)
  rintro - s' ⟨htouch, hheld, bytes, hold, hnew⟩
  refine ⟨htouch, hheld, ?_, fun hc d b q hlookq hq hoff w hw => ?_⟩
  · rw [peek_eq_some (q := p) (by rw [htouch.work.lookup_eq, hlook])]
    exact ⟨_, hnew, if_pos rfl⟩
  · rcases eq_or_ne q p with rfl | hne
    · rw [peek_eq_some hlookq] at hw
      obtain ⟨bytes', hbytes', hw⟩ := hw
      rw [peek_eq_some (q := q) (by rw [htouch.work.lookup_eq, hlookq])]
      refine ⟨_, hnew, ?_⟩
      rw [if_neg (hoff rfl), hold hcopy bytes' hbytes']
      exact hw
    · rw [htouch.work.peek_eq hc hs hlookq hq hne]
      exact hw

theorem kernelEip_lt (hcode : s.kernelCodeEnd ≠ 0) : s.kernelCodeEnd - 1 < s.kernelCodeEnd := by
  have hpos : s.kernelCodeEnd.toNat ≠ 0 := fun e => hcode (Word.ext_toNat e)
  rw [BitVec.lt_def, FrameInv.toNat_pred (by omega)]
  omega

theorem add_one_add (a : Word) (k : Nat) :
    a + 1 + BitVec.ofNat 32 k = a + BitVec.ofNat 32 (k + 1) := by
  rw [show (1 : Word) = BitVec.ofNat 32 1 from rfl, BitVec.add_assoc, ← BitVec.ofNat_add,
    Nat.add_comm]

theorem add_ofNat_ne (a : Word) {k : Nat} (h₁ : 0 < k) (h₂ : k < 2 ^ 32) :
    a + BitVec.ofNat 32 k ≠ a := by
  intro e
  have := congrArg BitVec.toNat e
  have hlt := a.isLt
  rw [BitVec.toNat_add, BitVec.toNat_ofNat] at this
  omega

variable {dest : Word} {vs : List Byte}

variable (g c) in
/-- The bytes `vs` have been written from `dest` on by kernel code. -/
structure Stored (dest : Word) (vs : List Byte) (s s' : Kernel) : Prop where
  held : ∀ k < vs.length, ∀ q,
    lookup s s.currentPageDir (dest + BitVec.ofNat 32 k) = some q → (s'.page q).addr ≠ 0
  bytes : c → ∀ k (hk : k < vs.length),
    peek s' s.currentPageDir (dest + BitVec.ofNat 32 k) = some vs[k]
  other : c → ∀ d b q, lookup s d b = some q → Editable g s q →
    (∀ k < vs.length, lookup s s.currentPageDir (dest + BitVec.ofNat 32 k) = some q →
      pageOffset b ≠ pageOffset (dest + BitVec.ofNat 32 k)) →
    ∀ w, peek s d b = some w → peek s' d b = some w

/-- `memcpy` and `memset` of kernel code to pages that are open to it. -/
theorem store_ends (hK : ∀ k < vs.length, ∀ q,
      lookup s s.currentPageDir (dest + BitVec.ofNat 32 k) = some q → q ∈ K)
    (hs : Sound g c s) (hl : Linked g s) (hlen : vs.length ≤ 2 ^ 32)
    (hready : ∀ k < vs.length,
      Ready g s (dest + BitVec.ofNat 32 k) true (s.kernelCodeEnd - 1)) :
    Ends (store dest vs) s (fun _ s' => Touch g c K s s' ∧ Stored g c dest vs s s')
      (fun e _ => e = .noFreeFrame) := by
  induction vs generalizing s dest with
  | nil =>
      exact ⟨.refl, fun k hk => absurd hk (Nat.not_lt_zero k),
        fun _ k hk => absurd hk (Nat.not_lt_zero k), fun _ _ _ _ _ _ _ _ h => h⟩
  | cons v vs ih =>
      have hzero : dest + BitVec.ofNat 32 0 = dest := by simp
      have hfirst := hready 0 (by simp)
      rw [hzero] at hfirst
      obtain ⟨p, hlook, hp, hgrant, hcopy⟩ := hfirst
      refine (Ends.bind_of_ok (x := kernelEip) rfl).mpr
        (Ends.bind (writeByte_peek hs hlook hp hgrant hcopy v) ?_)
      rintro - s₁ ⟨htouch, hheld, hshow, hother⟩
      have hpK : p ∈ K := hK 0 (by simp) p (by rw [hzero, hlook])
      have hcur := htouch.work.current_eq
      have hl₁ := hl.congr htouch.work.rest
      refine (@ih s₁ (dest + 1) (fun k hk q hq => ?_)
        (htouch.work.steps.sound hs) hl₁ (by simp at hlen; omega) (fun k hk => ?_)).mono ?_
        (fun _ _ h => h)
      · rw [add_one_add, hcur, htouch.work.lookup_eq] at hq
        exact hK (k + 1) (by simp; omega) q hq
      · rw [add_one_add, htouch.work.codeEnd_eq]
        exact htouch.ready (hready (k + 1) (by simp; omega))
      · rintro - s' ⟨htouch', hstored⟩
        have hdir := htouch.work.lookup_eq
        refine ⟨(htouch.mono (by simpa using hpK)).trans htouch', fun k hk q hlookq => ?_,
          fun hc k hk => ?_, fun hc d b q hlookq hq hoff w hw => ?_⟩
        · cases k with
          | zero =>
              rw [hzero, hlook] at hlookq
              cases hlookq
              exact htouch'.held p (htouch.work.steps.editable hp) hheld
          | succ k =>
              refine hstored.held k (by simpa using hk) q ?_
              rw [add_one_add, hcur, hdir, hlookq]
        · cases k with
          | zero =>
              rw [hzero]
              refine hstored.other hc _ _ p (by rw [hdir, hlook])
                (htouch.work.steps.editable hp) (fun k hk hlookk he => ?_) v hshow
              -- the same entry and offset would be the same address
              rw [add_one_add] at hlookk he
              rw [hcur, hdir] at hlookk
              have hpage := hl.pageOf_eq_of_lookup hl.current hlook hlookk
              have hlen' : vs.length + 1 ≤ 2 ^ 32 := hlen
              exact add_ofNat_ne dest (Nat.succ_pos k) (by omega) (eq_of_pageOf hpage he).symm
          | succ k =>
              have := hstored.bytes hc k (by simpa using hk)
              rw [add_one_add, hcur] at this
              simpa using this
        · have hw₁ := hother hc d b q hlookq hq (fun e he => ?_) w hw
          · refine hstored.other hc d b q (by rw [hdir, hlookq])
              (htouch.work.steps.editable hq) (fun k hk hlookk => ?_) w hw₁
            rw [add_one_add, hcur, hdir] at hlookk
            rw [add_one_add]
            exact hoff (k + 1) (by simpa using hk) hlookk
          · have := hoff 0 (by simp)
            rw [hzero] at this
            exact this (by rw [hlook, e]) he

theorem memset_eq_store (dest : Word) (val : Byte) (n : Nat) :
    memset dest val n = store dest (List.replicate n val) := by
  induction n generalizing dest with
  | zero => rfl
  | succ n ih => simp only [memset, store, List.replicate_succ, ih]

/-- A written run of bytes of the current directory, seen from an address outside it. -/
theorem Stored.other_addr (h : Stored g c dest vs s s') (hc : c) (hl : Linked g s) {b : Word}
    {w : Byte} (hplain : Plain g s s.currentPageDir b)
    (hne : ∀ k < vs.length, b ≠ dest + BitVec.ofNat 32 k) (hw : peek s s.currentPageDir b = some w) :
    peek s' s.currentPageDir b = some w := by
  obtain ⟨q, hlook, hq⟩ := hplain
  refine h.other hc _ b q hlook hq (fun k hk hlookk he => hne k hk ?_) w hw
  exact eq_of_pageOf (hl.pageOf_eq_of_lookup hl.current hlook hlookk) he

end Jkos.Page
