import Jkos.Page.Regions

/-!
# The frames that static memory covers

`init_frames` runs before the page tables and the reference counts are allocated, so a
loop at the end of `Page::init` drops frames from the top of the stack until one lies
above static memory. This module says when that is enough, and computes the end of static
memory.
-/

namespace Jkos.Boot

/-! ## Dropping frames -/

/-- The loop ends with a stack whose frames all lie above `limit`. -/
def Drops (limit : Word) (frames : List Word) : Prop :=
  ∃ rest, dropFrames limit frames = .ok rest ∧ ∀ f ∈ rest, limit < f

/-- The loop removes a run of covered frames from the top and leaves a frame. -/
theorem dropFrames_ok {limit : Word} {frames rest : List Word}
    (h : dropFrames limit frames = .ok rest) :
    rest ≠ [] ∧ ∃ dropped, frames = dropped ++ rest ∧ ∀ f ∈ dropped, f ≤ limit := by
  induction frames with
  | nil => cases h
  | cons f frames ih =>
      rw [dropFrames] at h
      split at h
      · next hle =>
          obtain ⟨hne, dropped, hframes, hdropped⟩ := ih h
          refine ⟨hne, f :: dropped, by simp [hframes], ?_⟩
          intro g hg
          cases hg with
          | head => exact hle
          | tail _ hmem => exact hdropped g hmem
      · cases h
        exact ⟨by simp, [], rfl, by simp⟩

theorem drops_of_forall {limit : Word} {frames : List Word} (hne : frames ≠ [])
    (h : ∀ f ∈ frames, limit < f) : Drops limit frames := by
  obtain ⟨f, rest, rfl⟩ := List.exists_cons_of_ne_nil hne
  have hf : ¬ f ≤ limit := Nat.not_le.mpr (h f (by simp))
  exact ⟨f :: rest, by rw [dropFrames, if_neg hf], h⟩

/-- From a stack that ascends from its top, exactly the covered frames are dropped. -/
theorem drops_iff_of_pairwise {limit : Word} {frames : List Word}
    (hsorted : frames.Pairwise (fun a b => a.toNat < b.toNat)) :
    Drops limit frames ↔ ∃ f ∈ frames, limit < f := by
  constructor
  · rintro ⟨rest, hrest, habove⟩
    obtain ⟨hne, dropped, rfl, -⟩ := dropFrames_ok hrest
    obtain ⟨f, hf⟩ := List.exists_mem_of_ne_nil _ hne
    exact ⟨f, by simp [hf], habove f hf⟩
  · intro h
    induction frames with
    | nil => simp at h
    | cons g frames ih =>
        by_cases hg : g ≤ limit
        · have htail : ∃ f ∈ frames, limit < f := by
            obtain ⟨f, hf, hlt⟩ := h
            cases hf with
            | head => exact absurd hg (Nat.not_le.mpr hlt)
            | tail _ hmem => exact ⟨f, hmem, hlt⟩
          obtain ⟨rest, hrest, habove⟩ := ih hsorted.of_cons htail
          exact ⟨rest, by rw [dropFrames, if_pos hg, hrest], habove⟩
        · refine ⟨g :: frames, by rw [dropFrames, if_neg hg], ?_⟩
          have hg' : limit.toNat < g.toNat := Nat.not_le.mp hg
          intro f hf
          cases hf with
          | head => exact hg'
          | tail _ hmem => exact Nat.lt_trans hg' (List.rel_of_pairwise_cons hsorted hmem)

/-- If lower frames lie below higher ones in the stack, the loop must find nothing to drop. -/
theorem drops_append_iff {limit : Word} {upper lower : List Word} (hupper : upper ≠ [])
    (hlower : lower ≠ []) (hlt : ∀ f ∈ upper, ∀ g ∈ lower, g.toNat < f.toNat) :
    Drops limit (upper ++ lower) ↔ ∀ f ∈ upper ++ lower, limit < f := by
  constructor
  · rintro ⟨rest, hrest, habove⟩
    obtain ⟨hne, dropped, hframes, hdropped⟩ := dropFrames_ok hrest
    cases dropped with
    | nil =>
        rw [hframes]
        exact habove
    | cons f dropped =>
        exfalso
        obtain ⟨top, upper', rfl⟩ := List.exists_cons_of_ne_nil hupper
        have htop : top = f := (List.cons.inj hframes).1
        -- the lowest frame of the stack is still there
        have hlast : rest.getLast hne = lower.getLast hlower := by
          have := congrArg List.getLast? hframes
          rw [List.getLast?_append_of_ne_nil _ hlower, List.getLast?_append_of_ne_nil _ hne,
            List.getLast?_eq_some_getLast hlower, List.getLast?_eq_some_getLast hne] at this
          exact (Option.some.inj this).symm
        have hcovered : f.toNat ≤ limit.toNat := hdropped f (by simp)
        have hbelow := hlt top (by simp) _ (List.getLast_mem hlower)
        have hover : limit.toNat < (rest.getLast hne).toNat := habove _ (List.getLast_mem hne)
        rw [hlast] at hover
        rw [htop] at hbelow
        omega
  · exact drops_of_forall (by simp [hupper])

/-! ## The allocations -/

theorem getPage_of_table {addr : Word} {s : State}
    (h : s.tables ((addr >>> 22).setWidth 10) = true) : getPage addr s = (.ok (), s) := by
  simp [getPage, Exec.bind_apply, h]

theorem getPage_of_none {addr : Word} {s : State}
    (h : s.tables ((addr >>> 22).setWidth 10) = false) :
    getPage addr s = (.ok (),
      { s with
        staticEnd := getAligned s.staticEnd 12 + 4096
        tables := fun j => if j = (addr >>> 22).setWidth 10 then true else s.tables j }) := by
  simp [getPage, Exec.bind_apply, h, kmalloc_apply]

theorem getPage_frames (addr : Word) (s : State) : (getPage addr s).2.frames = s.frames := by
  cases h : s.tables ((addr >>> 22).setWidth 10) with
  | true => rw [getPage_of_table h]
  | false => rw [getPage_of_none h]

theorem mapPages_frames (stop : State → Word) (fuel : Nat) (i : Word) (s : State) :
    (mapPages stop fuel i s).2.frames = s.frames := by
  induction fuel generalizing i s with
  | zero => rfl
  | succ fuel ih =>
      rw [mapPages, Exec.bind_apply, Exec.read_apply]
      dsimp only
      split
      · rw [Exec.bind_apply]
        have hpage := getPage_frames i s
        split
        · next a s' hs =>
            rw [hs] at hpage
            rw [ih, hpage]
        · next e s' hs =>
            rw [hs] at hpage
            exact hpage
      · rfl

theorem newRefCnt_of_some {s : State} {n : Word} (h : refCntLength s.frames = some n) :
    newRefCnt s = (.ok (), { s with staticEnd := s.staticEnd + 4 * n }) := by
  simp only [newRefCnt, Exec.bind_apply, Exec.read_apply, h, newArray, kmalloc_apply,
    getAligned_zero]
  rfl

theorem newRefCnt_frames {s s' : State} (h : newRefCnt s = (.ok (), s')) :
    s'.frames = s.frames := by
  cases hlen : refCntLength s.frames with
  | none =>
      simp only [newRefCnt, Exec.bind_apply, Exec.read_apply, hlen] at h
      cases h
  | some n =>
      rw [newRefCnt_of_some hlen] at h
      cases h
      rfl

/-- The allocations after `init_frames` leave the stack as it is. -/
theorem allocate_frames {s b : State} (h : allocate s = (.ok (), b)) : b.frames = s.frames := by
  obtain ⟨⟨⟩, s₁, hheap, h⟩ := Exec.bind_eq_ok h
  obtain ⟨⟨⟩, s₂, hcnt, hlow⟩ := Exec.bind_eq_ok h
  have h₁ : s₁.frames = s.frames := by
    have := mapPages_frames (fun _ => kernelHeapEnd) loopBound kernelHeapBegin s
    rwa [hheap] at this
  have h₂ : s₂.frames = s₁.frames := newRefCnt_frames hcnt
  have h₃ : b.frames = s₂.frames := by
    have := mapPages_frames (·.staticEnd) loopBound 0x1000 s₂
    rwa [hlow] at this
  rw [h₃, h₂, h₁]

/-! ## Safety of the stack -/

/-- `Page::init` returns, and no frame of the stack overlaps static memory. -/
def Safe (m : Multiboot) : Prop :=
  ∃ b, init m (start m) = (.ok (), b) ∧ ∀ f ∈ b.frames, b.staticEnd >>> 12 < f

theorem safe_iff_drops {m : Multiboot} {b : State} (run : prepare m (start m) = (.ok (), b)) :
    Safe m ↔ Drops (b.staticEnd >>> 12) b.frames := by
  have hinit : init m (start m) =
      match dropFrames (b.staticEnd >>> 12) b.frames with
      | .ok rest => (.ok (), { b with frames := rest })
      | .error e => (.error e, b) := by
    rw [init, Exec.bind_ok run]
    simp only [Exec.bind_apply, Exec.read_apply, lift, Exec.modify_apply]
    cases dropFrames (b.staticEnd >>> 12) b.frames <;> rfl
  constructor
  · rintro ⟨b', hb', habove⟩
    rw [hinit] at hb'
    split at hb'
    · next rest hrest =>
        cases hb'
        exact ⟨rest, hrest, habove⟩
    · cases hb'
  · rintro ⟨rest, hrest, habove⟩
    exact ⟨_, by rw [hinit, hrest], habove⟩

theorem forall_stack_iff {m : Multiboot} (limit : Word) :
    (∀ f ∈ m.stack, limit < f) ↔ ∀ e ∈ m.providers, limit.toNat < e.lowest m.limit := by
  constructor
  · intro h e he
    have hlow := Multiboot.lowest_lt he
    have hend := e.endFrame.isLt
    have hmem := MmapEntry.ofNat_mem_frames (Nat.le_refl _) hlow
    have hlt : limit.toNat < _ := h _ (Multiboot.mem_stack.mpr ⟨e, he, hmem⟩)
    rwa [BitVec.toNat_ofNat, Nat.mod_eq_of_lt (by omega)] at hlt
  · intro h f hf
    obtain ⟨e, he, hmem⟩ := Multiboot.mem_stack.mp hf
    exact Nat.lt_of_lt_of_le (h e he) (MmapEntry.mem_frames.mp hmem).1

/-- From the stack of a single region, a frame is left if its highest one is not covered. -/
theorem drops_frames_iff {limit limit' : Word} {e : MmapEntry}
    (hprov : e.lowest limit < e.endFrame.toNat - 1) :
    Drops limit' (e.frames limit) ↔ limit'.toNat < e.endFrame.toNat - 2 := by
  have hend := e.endFrame.isLt
  rw [drops_iff_of_pairwise e.pairwise_frames]
  constructor
  · rintro ⟨f, hf, hlt⟩
    have hhigh := (MmapEntry.mem_frames.mp hf).2
    have hlt' : limit'.toNat < f.toNat := hlt
    omega
  · intro hlt
    have hmem : BitVec.ofNat 32 (e.endFrame.toNat - 2) ∈ e.frames limit :=
      MmapEntry.ofNat_mem_frames (by omega) (by omega)
    refine ⟨_, hmem, ?_⟩
    rw [BitVec.lt_def, BitVec.toNat_ofNat, Nat.mod_eq_of_lt (by omega)]
    exact hlt

/-- The stack that the loop is given. -/
theorem frames_of_prepare {m : Multiboot} {b : State} (asc : m.Ascending)
    (run : prepare m (start m) = (.ok (), b)) :
    b.frames = m.stack ∧ ∀ e ∈ m.regions, e.addr.toNat + e.len.toNat < 2 ^ 32 := by
  obtain ⟨⟨⟩, s, hload, hrest⟩ := Exec.bind_eq_ok run
  obtain ⟨hs, hfit⟩ := loadMap_spec asc hload
  subst hs
  exact ⟨allocate_frames hrest, hfit⟩

/-- The loop at the end of `Page::init` looks at the top of the stack only, where the frames
of the last region lie. It makes the stack safe if a single region contributes frames and
one of them lies above static memory; with several regions nothing may be covered at all. -/
theorem init_safe_iff {m : Multiboot} {b : State} (asc : m.Ascending)
    (run : prepare m (start m) = (.ok (), b)) (hprov : m.providers ≠ []) :
    Safe m ↔
      (∀ e ∈ m.providers, (b.staticEnd >>> 12).toNat < e.lowest m.limit) ∨
      ∃ e, m.providers = [e] ∧ (b.staticEnd >>> 12).toNat < e.endFrame.toNat - 2 := by
  obtain ⟨hframes, hfit⟩ := frames_of_prepare asc run
  rw [safe_iff_drops run, hframes, ← forall_stack_iff]
  generalize b.staticEnd >>> 12 = limit
  cases h : m.providers with
  | nil => exact absurd h hprov
  | cons e es =>
      cases es with
      | nil =>
          have hlow := Multiboot.lowest_lt (h ▸ List.mem_singleton_self e : e ∈ m.providers)
          rw [Multiboot.stack_of_single h, drops_frames_iff hlow]
          constructor
          · intro hlt
            exact .inr ⟨e, rfl, hlt⟩
          · rintro (hall | ⟨e', heq, hlt⟩)
            · rw [← Multiboot.stack_of_single h, forall_stack_iff] at hall
              have := hall e (by simp [h])
              omega
            · obtain ⟨rfl, -⟩ := List.cons.inj heq
              exact hlt
      | cons e' es =>
          obtain ⟨upper, lower, hstack, hupper, hlower, hlt⟩ :=
            Multiboot.stack_of_several asc hfit h
          rw [hstack, drops_append_iff hupper hlower hlt]
          constructor
          · exact .inl
          · rintro (hall | ⟨_, heq, -⟩)
            · exact hall
            · cases heq

/-! ## The end of static memory -/

/-- A loop over pages whose states are known. -/
theorem mapPages_orbit {stop : State → Word} (st : Nat → State) {n : Nat} {i : Word}
    (hstep : ∀ k < n, i + BitVec.ofNat 32 (4096 * k) < stop (st k) ∧
      getPage (i + BitVec.ofNat 32 (4096 * k)) (st k) = (.ok (), st (k + 1)))
    (hstop : ¬ i + BitVec.ofNat 32 (4096 * n) < stop (st n)) {fuel : Nat} (hfuel : n < fuel) :
    mapPages stop fuel i (st 0) = (.ok (), st n) := by
  suffices h : ∀ k, k ≤ n → ∀ fuel, n - k < fuel →
      mapPages stop fuel (i + BitVec.ofNat 32 (4096 * k)) (st k) = (.ok (), st n) by
    simpa using h 0 (Nat.zero_le n) fuel (by omega)
  intro k hk
  induction hk using Nat.decreasingInduction with
  | self =>
      intro fuel hfuel
      obtain ⟨fuel, rfl⟩ := Nat.exists_eq_add_one_of_ne_zero (by omega : fuel ≠ 0)
      rw [mapPages, Exec.bind_apply, Exec.read_apply]
      exact congrFun (if_neg hstop) _
  | of_succ k hk ih =>
      intro fuel hfuel
      obtain ⟨fuel, rfl⟩ := Nat.exists_eq_add_one_of_ne_zero (by omega : fuel ≠ 0)
      obtain ⟨hlt, hpage⟩ := hstep k hk
      have hnext : i + BitVec.ofNat 32 (4096 * k) + 0x1000 =
          i + BitVec.ofNat 32 (4096 * (k + 1)) := by
        rw [Nat.mul_succ, BitVec.ofNat_add, BitVec.add_assoc]
        rfl
      have htail := ih fuel (by omega)
      rw [mapPages, Exec.bind_apply, Exec.read_apply]
      dsimp only
      rw [if_pos hlt, Exec.bind_ok hpage, hnext]
      exact htail

/-- The next multiple of the page size. -/
def roundUp (n : Nat) : Nat := (n + 4095) / 4096 * 4096

theorem getAligned_eq_roundUp {addr : Word} (h : addr.toNat + 4096 ≤ 2 ^ 32) :
    getAligned addr 12 = BitVec.ofNat 32 (roundUp addr.toNat) := by
  apply BitVec.eq_of_toNat_eq
  rw [toNat_getAligned h, BitVec.toNat_ofNat, roundUp]
  change (addr.toNat + 4096 - 1) / 4096 * 4096 = _
  omega

/-- One more table behind page-aligned static memory. -/
theorem getAligned_ofNat {n : Nat} (h : n + 4096 ≤ 2 ^ 32) (halign : n % 4096 = 0) :
    getAligned (BitVec.ofNat 32 n) 12 = BitVec.ofNat 32 n := by
  have hn : (BitVec.ofNat 32 n).toNat = n := by
    rw [BitVec.toNat_ofNat, Nat.mod_eq_of_lt (by omega)]
  rw [getAligned_eq_roundUp (by rw [hn]; exact h), hn, roundUp]
  congr 1
  omega

theorem toNat_tableIdx {n : Nat} (h : n < 2 ^ 32) :
    (((BitVec.ofNat 32 n) >>> 22).setWidth 10 : BitVec 10).toNat = n / 2 ^ 22 := by
  rw [BitVec.toNat_setWidth, BitVec.toNat_ushiftRight, BitVec.toNat_ofNat,
    Nat.shiftRight_eq_div_pow]
  omega

/-- The state when `k` pages of the heap have got their tables. -/
def heapState (s : State) (k : Nat) : State where
  staticEnd := if k = 0 then s.staticEnd
    else BitVec.ofNat 32 (roundUp s.staticEnd.toNat + 4096 * ((k + 1023) / 1024))
  frames := s.frames
  tables j := decide (959 ≤ j.toNat ∧ j.toNat < 959 + (k + 1023) / 1024)

theorem le_roundUp (n : Nat) : n ≤ roundUp n ∧ roundUp n ≤ n + 4095 ∧ roundUp n % 4096 = 0 := by
  rw [roundUp]
  omega

/-- Static memory grows by a page for a table that is missing. -/
theorem getAligned_grow {n : Nat} (h : n + 4096 ≤ 2 ^ 32) (halign : n % 4096 = 0) :
    getAligned (BitVec.ofNat 32 n) 12 + 4096 = BitVec.ofNat 32 (n + 4096) := by
  rw [getAligned_ofNat h halign]
  exact (BitVec.ofNat_add _ _).symm

theorem getPage_heapState {s : State} (hfit : s.staticEnd.toNat + 0x50000 ≤ 2 ^ 32) {k : Nat}
    (hk : k < 65536) :
    getPage (BitVec.ofNat 32 (0xEFC00000 + 4096 * k)) (heapState s k) =
      (.ok (), heapState s (k + 1)) := by
  obtain ⟨-, hround, halign⟩ := le_roundUp s.staticEnd.toNat
  have hidx := toNat_tableIdx (n := 0xEFC00000 + 4096 * k) (by omega)
  by_cases hmod : k % 1024 = 0
  · have hnone : (heapState s k).tables
        (((BitVec.ofNat 32 (0xEFC00000 + 4096 * k)) >>> 22).setWidth 10) = false := by
      simp only [heapState, hidx, decide_eq_false_iff_not]
      omega
    have hcount : (k + 1 + 1023) / 1024 = k / 1024 + 1 := by omega
    have hcount' : (k + 1023) / 1024 = k / 1024 := by omega
    rw [getPage_of_none hnone]
    refine congrArg (Prod.mk (Except.ok ())) (State.ext ?_ rfl ?_)
    · simp only [heapState, hcount, hcount', if_neg (Nat.succ_ne_zero k)]
      split
      · next hk0 =>
          subst hk0
          rw [getAligned_eq_roundUp (by omega)]
          exact (BitVec.ofNat_add _ _).symm
      · rw [Nat.mul_succ, ← Nat.add_assoc]
        exact getAligned_grow (by omega) (by omega)
    · funext j
      have hj : j = ((BitVec.ofNat 32 (0xEFC00000 + 4096 * k)) >>> 22).setWidth 10 ↔
          j.toNat = 959 + k / 1024 := by
        rw [← BitVec.toNat_inj, hidx]
        omega
      simp only [heapState, hcount, hcount', hj]
      split
      · next heq =>
          rw [eq_comm, decide_eq_true_eq]
          omega
      · next hne =>
          rw [decide_eq_decide]
          omega
  · have hsome : (heapState s k).tables
        (((BitVec.ofNat 32 (0xEFC00000 + 4096 * k)) >>> 22).setWidth 10) = true := by
      simp only [heapState, hidx, decide_eq_true_eq]
      omega
    have hcount : (k + 1 + 1023) / 1024 = (k + 1023) / 1024 := by omega
    have hk0 : k ≠ 0 := by
      rintro rfl
      exact hmod rfl
    rw [getPage_of_table hsome]
    simp only [heapState, hcount, if_neg hk0, if_neg (Nat.succ_ne_zero k)]

/-- The state when the heap has its tables. -/
def withHeap (s : State) : State where
  staticEnd := BitVec.ofNat 32 (roundUp s.staticEnd.toNat + 0x40000)
  frames := s.frames
  tables j := decide (959 ≤ j.toNat ∧ j.toNat < 1023)

theorem heapState_full (s : State) : heapState s 65536 = withHeap s := by
  simp [heapState, withHeap]

theorem heapState_zero {s : State} (htables : s.tables = fun _ => false) : heapState s 0 = s := by
  ext j
  · rfl
  · rfl
  · simp only [heapState, htables, decide_eq_false_iff_not]
    omega

/-- The pages of the kernel heap. -/
theorem heapPage (k : Nat) : kernelHeapBegin + BitVec.ofNat 32 (4096 * k) =
    BitVec.ofNat 32 (0xEFC00000 + 4096 * k) := by
  rw [BitVec.ofNat_add]
  rfl

theorem heapPage_lt {k : Nat} (hk : k < 65536) :
    BitVec.ofNat 32 (0xEFC00000 + 4096 * k) < kernelHeapEnd := by
  rw [BitVec.lt_def, BitVec.toNat_ofNat, Nat.mod_eq_of_lt (by omega)]
  change _ < 0xFFC00000
  omega

theorem roundUp_le {n m : Nat} (hle : n ≤ m) (halign : m % 4096 = 0) : roundUp n ≤ m := by
  rw [roundUp]
  omega

/-- There is room for one more table while the heap gets its tables. -/
theorem heapState_room {s : State} (hfit : s.staticEnd.toNat + 0x50000 ≤ 2 ^ 32) {k : Nat}
    (hk : k < 65536) : roundUp (heapState s k).staticEnd.toNat + 4096 < 2 ^ 32 := by
  obtain ⟨-, hround, halign⟩ := le_roundUp s.staticEnd.toNat
  have hle : roundUp (heapState s k).staticEnd.toNat ≤
      roundUp s.staticEnd.toNat + 4096 * ((k + 1023) / 1024) := by
    by_cases hk0 : k = 0
    · simp [heapState, hk0]
    · apply roundUp_le
      · simp only [heapState, if_neg hk0, BitVec.toNat_ofNat]
        exact Nat.mod_le _ _
      · omega
  omega

theorem heapState_pos {s : State} (hpos : 0 < s.staticEnd.toNat)
    (hfit : s.staticEnd.toNat + 0x50000 ≤ 2 ^ 32) {k : Nat} (hk : k ≤ 65536) :
    0 < (heapState s k).staticEnd.toNat := by
  obtain ⟨hle, hround, -⟩ := le_roundUp s.staticEnd.toNat
  by_cases hk0 : k = 0
  · simpa [heapState, hk0] using hpos
  · simp only [heapState, if_neg hk0, BitVec.toNat_ofNat]
    rw [Nat.mod_eq_of_lt (by omega)]
    omega

/-- `kheap_init` allocates 64 tables. -/
theorem mapPages_heap {s : State} (hfit : s.staticEnd.toNat + 0x50000 ≤ 2 ^ 32)
    (htables : s.tables = fun _ => false) :
    mapPages (fun _ => kernelHeapEnd) loopBound kernelHeapBegin s = (.ok (), withHeap s) := by
  suffices h : mapPages (fun _ => kernelHeapEnd) loopBound kernelHeapBegin (heapState s 0) =
      (.ok (), heapState s 65536) by
    rwa [heapState_zero htables, heapState_full] at h
  apply mapPages_orbit (heapState s)
  · intro k hk
    rw [heapPage]
    exact ⟨heapPage_lt hk, getPage_heapState hfit hk⟩
  · decide
  · rw [loopBound]
    decide

/-- The number of tables that map static memory, themselves included, when its first `n`
bytes are in use without them. -/
def lowTables (n : Nat) : Nat := (n - 1) / (2 ^ 22 - 4096) + 1

/-- The end of static memory once its tables are there. -/
def lowEnd (n : Nat) : Nat := roundUp n + 4096 * lowTables (roundUp n)

/-- The state when the pages `1`, …, `k` have got their tables. -/
def lowState (s : State) (k : Nat) : State where
  staticEnd := if k = 0 then s.staticEnd
    else BitVec.ofNat 32 (roundUp s.staticEnd.toNat + 4096 * (k / 1024 + 1))
  frames := s.frames
  tables j := s.tables j || (decide (k ≠ 0) && decide (j.toNat ≤ k / 1024))

theorem le_div_succ_iff {j k : Nat} (hne : ¬ j = (k + 1) / 1024) :
    (k ≠ 0 ∧ j ≤ k / 1024) ↔ (k + 1 ≠ 0 ∧ j ≤ (k + 1) / 1024) := by
  omega

theorem getPage_lowState {s : State} {k : Nat}
    (hgrow : roundUp s.staticEnd.toNat + 4096 * (k / 1024 + 1) + 4096 ≤ 2 ^ 32)
    (hk : k + 1 < 959 * 1024) (htables : ∀ j, j.toNat < 959 → s.tables j = false) :
    getPage (BitVec.ofNat 32 (4096 * (k + 1))) (lowState s k) = (.ok (), lowState s (k + 1)) := by
  obtain ⟨hle, hround, halign⟩ := le_roundUp s.staticEnd.toNat
  have hmult : (roundUp s.staticEnd.toNat + 4096 * (k / 1024 + 1)) % 4096 = 0 := by
    rw [Nat.add_mul_mod_self_left]
    exact halign
  have hidx := toNat_tableIdx (n := 4096 * (k + 1)) (by omega)
  have hidx' : 4096 * (k + 1) / 2 ^ 22 = (k + 1) / 1024 := by omega
  rw [hidx'] at hidx
  have htable : s.tables (((BitVec.ofNat 32 (4096 * (k + 1))) >>> 22).setWidth 10) = false := by
    apply htables
    omega
  by_cases hmod : k = 0 ∨ (k + 1) % 1024 = 0
  · have hnone : (lowState s k).tables
        (((BitVec.ofNat 32 (4096 * (k + 1))) >>> 22).setWidth 10) = false := by
      simp only [lowState, htable, hidx, Bool.false_or, Bool.and_eq_false_iff,
        decide_eq_false_iff_not]
      omega
    rw [getPage_of_none hnone]
    refine congrArg (Prod.mk (Except.ok ())) (State.ext ?_ rfl ?_)
    · simp only [lowState, if_neg (Nat.succ_ne_zero k)]
      split
      · next hk0 =>
          subst hk0
          rw [getAligned_eq_roundUp (by omega)]
          exact (BitVec.ofNat_add _ _).symm
      · next hk0 =>
          have hcount : (k + 1) / 1024 = k / 1024 + 1 := by
            have := hmod.resolve_left hk0
            omega
          rw [hcount, Nat.mul_succ _ (k / 1024 + 1), ← Nat.add_assoc]
          exact getAligned_grow hgrow hmult
    · funext j
      have hj : j = ((BitVec.ofNat 32 (4096 * (k + 1))) >>> 22).setWidth 10 ↔
          j.toNat = (k + 1) / 1024 := by
        rw [← BitVec.toNat_inj, hidx]
      simp only [lowState, hj]
      split
      · next heq => simp [heq]
      · next hne =>
          rw [← Bool.decide_and, ← Bool.decide_and, decide_eq_decide.mpr (le_div_succ_iff hne)]
  · have hk0 : k ≠ 0 := fun h => hmod (.inl h)
    have hcount : (k + 1) / 1024 = k / 1024 := by omega
    have hsome : (lowState s k).tables
        (((BitVec.ofNat 32 (4096 * (k + 1))) >>> 22).setWidth 10) = true := by
      simp only [lowState, htable, hidx, Bool.false_or, Bool.and_eq_true, decide_eq_true_eq]
      omega
    rw [getPage_of_table hsome]
    simp [lowState, hcount, hk0]

/-- The number of pages that the loop over static memory visits. -/
def lowPages (n : Nat) : Nat := lowEnd n / 4096 - 1

theorem lowState_zero (s : State) : lowState s 0 = s := by
  ext j
  · rfl
  · rfl
  · simp [lowState]

@[simp] theorem lowState_frames (s : State) (k : Nat) : (lowState s k).frames = s.frames := by
  rw [lowState]

/-- The tables that map the first pages of static memory reach beyond these pages. -/
theorem page_lt_tables {a n k : Nat} (hk : k < n) (h : 4096 * (n + 1) = a + 4096 * (n / 1024 + 1))
    (hne : n % 1024 ≠ 0) : 4096 * (k + 1) < a + 4096 * (k / 1024 + 1) := by
  omega

theorem tables_lt_of_page {a n k : Nat} (hk : k < n)
    (h : 4096 * (n + 1) = a + 4096 * (n / 1024 + 1)) (hle : n + 1 ≤ 959 * 1024) :
    a + 4096 * (k / 1024 + 1) + 4096 < 2 ^ 32 := by
  omega

section LowPages

variable {s : State} (hlow : 0x1000 < s.staticEnd.toNat)
  (hfit : lowEnd s.staticEnd.toNat ≤ kernelHeapBegin.toNat)
include hlow hfit

/-- The pages of static memory, and the tables that map them, end where static memory does. -/
theorem lowPages_facts :
    4096 * (lowPages s.staticEnd.toNat + 1) = lowEnd s.staticEnd.toNat ∧
      lowEnd s.staticEnd.toNat =
        roundUp s.staticEnd.toNat + 4096 * (lowPages s.staticEnd.toNat / 1024 + 1) ∧
      lowPages s.staticEnd.toNat % 1024 ≠ 0 ∧ lowPages s.staticEnd.toNat + 1 ≤ 959 * 1024 := by
  obtain ⟨hle, -, halign⟩ := le_roundUp s.staticEnd.toNat
  obtain ⟨a, ha⟩ : ∃ a, a = roundUp s.staticEnd.toNat := ⟨_, rfl⟩
  obtain ⟨q, hq⟩ : ∃ q, q = (a - 1) / (2 ^ 22 - 4096) := ⟨_, rfl⟩
  have hheap : kernelHeapBegin.toNat = 0xEFC00000 := by decide
  have hfinal : lowEnd s.staticEnd.toNat = a + 4096 * (q + 1) := by
    rw [lowEnd, lowTables, ← ha, hq]
  rw [hheap, hfinal] at hfit
  rw [lowPages, hfinal, ← ha]
  rw [← ha] at hle halign
  refine ⟨?_, ?_, ?_, ?_⟩
  · omega
  · omega
  · omega
  · omega

/-- Static memory reaches further than the pages that have been visited. -/
theorem lowState_step {k : Nat} (hk : k < lowPages s.staticEnd.toNat) :
    4096 * (k + 1) < (lowState s k).staticEnd.toNat ∧
      roundUp s.staticEnd.toNat + 4096 * (k / 1024 + 1) + 4096 < 2 ^ 32 ∧
      k + 1 < 959 * 1024 := by
  obtain ⟨hend, hpages, hne, hle⟩ := lowPages_facts hlow hfit
  rw [hpages] at hend
  have hgrow := tables_lt_of_page hk hend hle
  refine ⟨?_, hgrow, Nat.lt_of_lt_of_le (Nat.succ_lt_succ hk) hle⟩
  by_cases hk0 : k = 0
  · subst hk0
    simpa [lowState] using hlow
  · simp only [lowState, if_neg hk0, BitVec.toNat_ofNat]
    rw [Nat.mod_eq_of_lt (Nat.lt_of_le_of_lt (Nat.le_add_right _ _) hgrow)]
    exact page_lt_tables hk hend hne

/-- There is room for one more table while static memory gets its tables. -/
theorem lowState_room {k : Nat} (hk : k < lowPages s.staticEnd.toNat) :
    roundUp (lowState s k).staticEnd.toNat + 4096 < 2 ^ 32 := by
  obtain ⟨-, hgrow, -⟩ := lowState_step hlow hfit hk
  obtain ⟨hle, -, halign⟩ := le_roundUp s.staticEnd.toNat
  refine Nat.lt_of_le_of_lt (Nat.add_le_add_right (roundUp_le ?_ ?_) 4096) hgrow
  · simp only [lowState]
    split
    · exact Nat.le_trans hle (Nat.le_add_right _ _)
    · exact Nat.mod_le _ _
  · rw [Nat.add_mul_mod_self_left]
    exact halign

theorem lowState_stop :
    (lowState s (lowPages s.staticEnd.toNat)).staticEnd.toNat = lowEnd s.staticEnd.toNat := by
  obtain ⟨-, hpages, hne, -⟩ := lowPages_facts hlow hfit
  have hne' : lowPages s.staticEnd.toNat ≠ 0 := fun h => hne (by rw [h])
  have hbound := Nat.lt_of_le_of_lt hfit kernelHeapBegin.isLt
  simp only [lowState, if_neg hne', BitVec.toNat_ofNat, ← hpages]
  exact Nat.mod_eq_of_lt hbound

end LowPages

/-- The addresses that the loop over static memory goes through. -/
theorem page_succ (k : Nat) :
    0x1000 + BitVec.ofNat 32 (4096 * k) = BitVec.ofNat 32 (4096 * (k + 1)) := by
  rw [Nat.mul_succ, Nat.add_comm, BitVec.ofNat_add]
  rfl

/-- The loop that maps static memory to itself moves the end of static memory. -/
theorem mapPages_low {s : State} (hlow : 0x1000 < s.staticEnd.toNat)
    (hfit : lowEnd s.staticEnd.toNat ≤ kernelHeapBegin.toNat)
    (htables : ∀ j, j.toNat < 959 → s.tables j = false) :
    ∃ b, mapPages (·.staticEnd) loopBound 0x1000 s = (.ok (), b) ∧ b.frames = s.frames ∧
      b.staticEnd.toNat = lowEnd s.staticEnd.toNat := by
  obtain ⟨hend, -, -, hle⟩ := lowPages_facts hlow hfit
  have hstop := lowState_stop hlow hfit
  suffices h : mapPages (·.staticEnd) loopBound 0x1000 (lowState s 0) =
      (.ok (), lowState s (lowPages s.staticEnd.toNat)) by
    rw [lowState_zero] at h
    exact ⟨_, h, lowState_frames s _, hstop⟩
  apply mapPages_orbit (lowState s)
  · intro k hk
    obtain ⟨hlt, hgrow, hbound⟩ := lowState_step hlow hfit hk
    rw [page_succ]
    have hpage := Nat.lt_trans hlt (lowState s k).staticEnd.isLt
    refine ⟨?_, getPage_lowState (Nat.le_of_lt hgrow) hbound htables⟩
    rw [BitVec.lt_def, BitVec.toNat_ofNat, Nat.mod_eq_of_lt hpage]
    exact hlt
  · rw [page_succ, BitVec.lt_def, hstop, BitVec.toNat_ofNat, hend]
    rw [Nat.mod_eq_of_lt (Nat.lt_of_le_of_lt hfit kernelHeapBegin.isLt)]
    exact Nat.lt_irrefl _
  · exact Nat.lt_of_le_of_lt (Nat.le_of_succ_le hle) (by decide)

/-- The end of static memory after the reference counts. -/
def refCntEnd (s : State) (n : Word) : Word := (withHeap s).staticEnd + 4 * n

/-- The end of static memory when nothing reaches the kernel heap. -/
theorem allocate_eq {s : State} {n : Word} (htables : s.tables = fun _ => false)
    (hlen : refCntLength s.frames = some n) (hheap : s.staticEnd.toNat + 0x50000 ≤ 2 ^ 32)
    (hlow : 0x1000 < (refCntEnd s n).toNat)
    (hfit : lowEnd (refCntEnd s n).toNat ≤ kernelHeapBegin.toNat) :
    ∃ b, allocate s = (.ok (), b) ∧
      b.staticEnd.toNat = lowEnd (refCntEnd s n).toNat := by
  have hframes : (withHeap s).frames = s.frames := by
    rw [withHeap]
  have hcnt : newRefCnt (withHeap s) =
      (.ok (), { withHeap s with staticEnd := refCntEnd s n }) :=
    newRefCnt_of_some (by rw [hframes]; exact hlen)
  have htables' : ∀ j : BitVec 10, j.toNat < 959 →
      ({ withHeap s with staticEnd := refCntEnd s n } : State).tables j = false := by
    intro j hj
    simp only [withHeap, decide_eq_false_iff_not]
    omega
  obtain ⟨b, hmap, -, hend⟩ := mapPages_low
    (s := { withHeap s with staticEnd := refCntEnd s n }) hlow hfit htables'
  refine ⟨b, ?_, hend⟩
  rw [allocate, Exec.bind_ok (mapPages_heap hheap htables), Exec.bind_ok hcnt]
  exact hmap

theorem framesBetween_cons {lo hi : Nat} (h : lo < hi) :
    framesBetween lo hi = BitVec.ofNat 32 lo :: framesBetween (lo + 1) hi := by
  have hlen : hi - lo = hi - (lo + 1) + 1 := by omega
  simp [framesBetween, hlen, List.range'_succ]

theorem getLast_framesBetween {lo hi : Nat} (h : lo < hi) :
    (framesBetween lo hi).getLast? = some (BitVec.ofNat 32 (hi - 1)) := by
  obtain ⟨hi, rfl⟩ : ∃ n, hi = n + 1 := ⟨hi - 1, by omega⟩
  rw [framesBetween_succ (by omega)]
  simp

theorem refCntLength_of_ends {frames : List Word} {top bottom : Word}
    (htop : frames.head? = some top) (hbottom : frames.getLast? = some bottom) :
    refCntLength frames = some (bottom - top + 1) := by
  cases frames with
  | nil => cases htop
  | cons f frames =>
      cases htop
      rw [List.getLast?_eq_some_getLast (by simp)] at hbottom
      rw [refCntLength, Option.some.inj hbottom]

theorem oneRegion_refCntLength : refCntLength oneRegion.stack = some 0x7DDB := by
  have hstack : oneRegion.stack = framesBetween 0x224 0x7FFF := by
    rw [Multiboot.stack_of_single oneRegion_providers]
    rfl
  rw [hstack, refCntLength_of_ends (by rw [framesBetween_cons (by decide)]; rfl)
    (getLast_framesBetween (by decide))]
  decide

theorem oneRegion_prepare :
    ∃ b, prepare oneRegion (start oneRegion) = (.ok (), b) ∧ b.staticEnd.toNat = 0x285000 := by
  obtain ⟨b, hb, hend⟩ := allocate_eq
    (s := ⟨oneRegion.frameArrayEnd, oneRegion.stack, fun _ => false⟩) rfl
    oneRegion_refCntLength (by decide)
    (by decide) (by decide)
  refine ⟨b, ?_, hend.trans (by decide)⟩
  rw [prepare, Exec.bind_ok oneRegion_loadMap]
  exact hb

theorem twoRegions_refCntLength :
    refCntLength twoRegions.stack = some (0xFFE - 0x1100 + 1) := by
  have hstack : twoRegions.stack = framesBetween 0x1100 0x7FFF ++ framesBetween 0x224 0xFFF := by
    rw [Multiboot.stack, twoRegions_providers]
    exact congrArg₂ (· ++ ·) rfl (List.append_nil _)
  rw [hstack, refCntLength_of_ends (by rw [framesBetween_cons (by decide)]; rfl)
    (by rw [List.getLast?_append, getLast_framesBetween (by decide)]; rfl)]
  decide

theorem twoRegions_prepare :
    ∃ b, prepare twoRegions (start twoRegions) = (.ok (), b) ∧ b.staticEnd.toNat = 0x265000 := by
  obtain ⟨b, hb, hend⟩ := allocate_eq
    (s := ⟨twoRegions.frameArrayEnd, twoRegions.stack, fun _ => false⟩) rfl
    twoRegions_refCntLength (by decide) (by decide) (by decide)
  refine ⟨b, ?_, hend.trans (by decide)⟩
  rw [prepare, Exec.bind_ok twoRegions_loadMap]
  exact hb

/-- A memory without holes leaves a safe stack. -/
theorem oneRegion_safe : Safe oneRegion := by
  obtain ⟨b, hb, hend⟩ := oneRegion_prepare
  refine (init_safe_iff oneRegion_ascending hb (by decide)).mpr (.inr ⟨_, oneRegion_providers, ?_⟩)
  rw [BitVec.toNat_ushiftRight, hend]
  decide

/-- With a hole in the memory, frames of the first region that the page tables cover stay on
the stack. -/
theorem twoRegions_unsafe :
    twoRegions.Ascending ∧ twoRegions.providers ≠ [] ∧
      (∃ b, prepare twoRegions (start twoRegions) = (.ok (), b)) ∧ ¬ Safe twoRegions := by
  obtain ⟨b, hb, hend⟩ := twoRegions_prepare
  refine ⟨twoRegions_ascending, by decide, ⟨b, hb⟩, ?_⟩
  obtain ⟨hframes, hfit⟩ := frames_of_prepare twoRegions_ascending hb
  obtain ⟨upper, lower, hstack, hupper, hlower, hlt⟩ :=
    Multiboot.stack_of_several twoRegions_ascending hfit twoRegions_providers
  rw [safe_iff_drops hb, hframes, hstack, drops_append_iff hupper hlower hlt, ← hstack,
    forall_stack_iff, twoRegions_providers, BitVec.toNat_ushiftRight, hend]
  decide

end Jkos.Boot
