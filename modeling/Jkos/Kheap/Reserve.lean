import Jkos.Kheap.Partition

/-!
# The search of `kmalloc`

`kmalloc` goes through the free blocks in the order of `tree_size`, from the least size that
could do, and takes the first one that passes its test. The test compares two 32-bit sums;
while they do not wrap it says that the request fits into the block. Of the block taken,
`kmalloc` cuts off what it does not need at both ends.
-/

namespace Jkos.Kheap

open Exec Cover

variable {F F' : Multiset Block} {h : Heap} {b got req : Block} {size : Word} {palign : Nat}

/-! ## The test -/

/-- The address that `kmalloc` would return for a block. -/
def payloadAt (palign : Nat) (b : Block) : Word := getAligned (b.start + sizeofBlock) palign

/-- The test of `kmalloc`: the payload ends in the block, as the code computes both ends. -/
def Accepts (size : Word) (palign : Nat) (b : Block) : Prop :=
  ¬ payloadAt palign b + size > b.start + b.size

/-- There is room in the block for a header and an aligned payload. -/
def Fits (size : Word) (palign : Nat) (b : Block) : Prop :=
  alignUp (b.start.toNat + 8) palign + size.toNat ≤ b.stop

/-- The block that the search takes: from `req` on, the least in the order of `tree_size`
that passes the test. -/
structure Chosen (F : Multiset Block) (size : Word) (palign : Nat) (req b : Block) : Prop where
  mem : b ∈ F
  not_lt : ¬ BlockSize.mk b < ⟨req⟩
  accepts : Accepts size palign b
  least : ∀ b' ∈ F, ¬ BlockSize.mk b' < ⟨req⟩ → Accepts size palign b' → ¬ BlockSize.mk b' < ⟨b⟩

theorem Block.Proper.toNat_header (hb : b.Proper) :
    (b.start + sizeofBlock).toNat = b.start.toNat + 8 := by
  have hhi := hb.hi
  have hpos := hb.pos
  rw [BitVec.toNat_add]
  change (b.start.toNat + 8) % 2 ^ 32 = _
  omega

theorem toNat_payloadAt (hb : b.Proper) :
    (payloadAt palign b).toNat = alignUp (b.start.toNat + 8) palign % 2 ^ 32 := by
  rw [payloadAt, toNat_getAligned_mod, hb.toNat_header]

/-- The sums that `kmalloc` computes for a block are exact. -/
structure Exact (size : Word) (palign : Nat) (b : Block) : Prop where
  header : (b.start + sizeofBlock).toNat = b.start.toNat + 8
  payload : (payloadAt palign b).toNat = alignUp (b.start.toNat + 8) palign
  payloadEnd : (payloadAt palign b + size).toNat =
    alignUp (b.start.toNat + 8) palign + size.toNat
  stop : (b.start + b.size).toNat = b.stop

theorem Exact.accepts_iff (h : Exact size palign b) :
    Accepts size palign b ↔ Fits size palign b := by
  rw [Accepts, gt_iff_lt, BitVec.lt_def, Nat.not_lt, h.payloadEnd, h.stop, Fits]

theorem exact_of_lt (hb : b.Proper)
    (hlt : alignUp (b.start.toNat + 8) palign + size.toNat < 2 ^ 32) : Exact size palign b := by
  have hpay : (payloadAt palign b).toNat = alignUp (b.start.toNat + 8) palign := by
    rw [toNat_payloadAt hb]
    exact Nat.mod_eq_of_lt (by omega)
  refine ⟨hb.toNat_header, hpay, ?_, hb.toNat_end⟩
  rw [BitVec.toNat_add, hpay]
  exact Nat.mod_eq_of_lt hlt

theorem Fits.exact (h : Fits size palign b) (hb : b.Proper) : Exact size palign b := by
  have hhi := hb.hi
  rw [Fits, Block.stop] at h
  exact exact_of_lt hb (by omega)

/-- What the address is when the request fits. -/
theorem Fits.payload (h : Fits size palign b) (hb : b.Proper) :
    b.start.toNat + 8 ≤ (payloadAt palign b).toNat ∧ 2 ^ palign ∣ (payloadAt palign b).toNat ∧
      (payloadAt palign b).toNat + size.toNat ≤ b.stop := by
  obtain ⟨hle, -, hdvd⟩ := alignUp_bounds (b.start.toNat + 8) palign
  rw [(h.exact hb).payload]
  exact ⟨hle, hdvd, h⟩

/-! ## The cuts -/

theorem cutTail_triple {start size : Word} (hF : ∀ b ∈ F, b.Proper) (hgot : got.Proper)
    (h₁ : got.start.toNat + 8 ≤ start.toNat)
    (h₂ : start.toNat + size.toNat ≤ got.start.toNat + got.size.toNat) :
    Triple (Frees · F F) (cutTail start size got)
      (fun got' h => ∃ F', Frees h F' F' ∧ Cut F got F' got' ∧ got'.start = got.start ∧
        start.toNat + size.toNat ≤ got'.start.toNat + got'.size.toNat ∧
        got'.stop ≤ start.toNat + size.toNat + 16 ∧
        ∀ b ∈ F', b ∈ F ∨ b.start.toNat = got'.stop ∧ b.stop = got.stop) NoNodes := by
  obtain ⟨hlo, hhi, hpos⟩ := hgot
  have hsum : (start + size).toNat = start.toNat + size.toNat := by
    rw [BitVec.toNat_add]
    omega
  have hend : (got.start + got.size).toNat = got.start.toNat + got.size.toNat := by
    rw [BitVec.toNat_add]
    omega
  have hslack : (start + size + sizeofBlock * 2).toNat = start.toNat + size.toNat + 16 := by
    rw [BitVec.toNat_add, hsum]
    change (start.toNat + size.toNat + 16) % 2 ^ 32 = _
    omega
  have hsub : (got.start + got.size - (start + size)).toNat =
      got.start.toNat + got.size.toNat - (start.toNat + size.toNat) := by
    rw [BitVec.toNat_sub_of_le (by rw [BitVec.le_def, hsum, hend]; exact h₂), hsum, hend]
  refine triple_ite (fun hc => ?_) (fun hc => ?_)
  · rw [BitVec.lt_def, hslack, hend] at hc
    have hkeep : (got.size - (got.start + got.size - (start + size))).toNat =
        start.toNat + size.toNat - got.start.toNat := by
      rw [BitVec.toNat_sub_of_le (by rw [BitVec.le_def, hsub]; omega), hsub]
      omega
    refine triple_bind (insertFree_triple _) fun _ => ?_
    refine (triple_pure _).weaken (fun h hs => ⟨_, hs, ?_, rfl, ?_, ?_, fun b hb => ?_⟩)
      (fun _ _ h => h) (fun _ _ h => h)
    · refine Cut.of_split hF ⟨?_, ?_, ?_⟩ ⟨hlo, ?_, ?_⟩ fun x => ?_
      · rw [hsum]
        omega
      · rw [hsum, hsub]
        omega
      · rw [hsub]
        omega
      · simp only [hkeep]
        omega
      · simp only [hkeep]
        omega
      · simp only [Block.span, hsum, hsub, hkeep]
        rw [Span.at_split (m := start.toNat + size.toNat) (by omega) (by omega), Nat.add_comm]
        congr 3 <;> omega
    · simp only [hkeep]
      omega
    · simp only [Block.stop, hkeep]
      omega
    · obtain rfl | hb := Multiset.mem_cons.mp hb
      · refine .inr ⟨?_, ?_⟩
        · simp only [Block.stop, hsum, hkeep]
          omega
        · simp only [Block.stop, hsum, hsub]
          omega
      · exact .inl hb
  · rw [BitVec.lt_def, hslack, hend] at hc
    refine (triple_pure _).weaken (fun h hs => ⟨F, hs, Cut.refl hF ⟨hlo, hhi, hpos⟩, rfl, h₂, ?_,
      fun b hb => .inl hb⟩) (fun _ _ h => h) (fun _ _ h => h)
    rw [Block.stop]
    omega

theorem cutFront_triple (start : Word) (hF : ∀ b ∈ F, b.Proper) (hgot : got.Proper)
    (h₁ : got.start.toNat + 8 ≤ start.toNat)
    (h₂ : start.toNat ≤ got.start.toNat + got.size.toNat) :
    Triple (Frees · F F) (cutFront start got)
      (fun got' h => ∃ F', Frees h F' F' ∧ Cut F got F' got' ∧
        got'.start.toNat + 8 ≤ start.toNat ∧ start.toNat ≤ got'.start.toNat + 24 ∧
        got'.start.toNat + got'.size.toNat = got.start.toNat + got.size.toNat ∧
        ∀ b ∈ F', b ∈ F ∨ b.start = got.start ∧ b.stop = got'.start.toNat) NoNodes := by
  obtain ⟨hlo, hhi, hpos⟩ := hgot
  have hsub : (start - got.start).toNat = start.toNat - got.start.toNat :=
    BitVec.toNat_sub_of_le (by rw [BitVec.le_def]; omega)
  refine triple_ite (fun hc => ?_) (fun hc => ?_)
  · have hc' : 24 < start.toNat - got.start.toNat := by
      rw [← hsub]
      exact BitVec.lt_def.mp hc
    have hrest : (start - got.start - sizeofBlock).toNat = start.toNat - got.start.toNat - 8 := by
      have h8 : sizeofBlock.toNat = 8 := rfl
      rw [BitVec.toNat_sub_of_le (by rw [BitVec.le_def, hsub, h8]; omega), hsub, h8]
    have hstart : (got.start + (start - got.start - sizeofBlock)).toNat = start.toNat - 8 := by
      rw [BitVec.toNat_add, hrest]
      omega
    have hsize : (got.size - (start - got.start - sizeofBlock)).toNat =
        got.size.toNat - (start.toNat - got.start.toNat - 8) := by
      rw [BitVec.toNat_sub_of_le (by rw [BitVec.le_def, hrest]; omega), hrest]
    refine triple_bind (insertFree_triple _) fun _ => ?_
    refine (triple_pure _).weaken (fun h hs => ⟨_, hs, ?_, ?_, ?_, ?_, fun b hb => ?_⟩)
      (fun _ _ h => h) (fun _ _ h => h)
    · refine Cut.of_split hF ⟨hlo, ?_, ?_⟩ ⟨?_, ?_, ?_⟩ fun x => ?_
      · simp only [hrest]
        omega
      · simp only [hrest]
        omega
      · rw [hstart]
        omega
      · rw [hstart, hsize]
        omega
      · rw [hsize]
        omega
      · simp only [Block.span, hrest, hstart, hsize]
        rw [Span.at_split (m := start.toNat - 8) (by omega) (by omega)]
        congr 3 <;> omega
    · rw [hstart]
      omega
    · rw [hstart]
      omega
    · rw [hstart, hsize]
      omega
    · obtain rfl | hb := Multiset.mem_cons.mp hb
      · refine .inr ⟨rfl, ?_⟩
        simp only [Block.stop, hrest, hstart]
        omega
      · exact .inl hb
  · rw [gt_iff_lt, BitVec.lt_def, hsub] at hc
    change ¬ 24 < start.toNat - got.start.toNat at hc
    refine (triple_pure _).weaken (fun h hs => ⟨F, hs, Cut.refl hF ⟨hlo, hhi, hpos⟩, h₁, ?_, rfl,
      fun b hb => .inl hb⟩) (fun _ _ h => h) (fun _ _ h => h)
    omega

/-- What the search loop of `kmalloc` promises. -/
structure Reserved (F F' : Multiset Block) (size : Word) (palign : Nat) (start : Word)
    (got : Block) : Prop where
  free : ∀ b ∈ F', b.Proper
  kept : got.Proper
  depth : ∀ x, depthOf F x = depthOf F' x + got.span.at x
  header : got.start.toNat + 8 ≤ start.toNat
  payload : start.toNat + size.toNat ≤ got.start.toNat + got.size.toNat
  aligned : 2 ^ palign ∣ start.toNat
  /-- What is left of the block that was cut lies at its ends. -/
  parts : ∃ whole F₀, F = whole ::ₘ F₀ ∧ ∀ b ∈ F', b ∈ F₀ ∨
    b.start = whole.start ∧ b.stop = got.start.toNat ∨
    b.start.toNat = got.stop ∧ b.stop = whole.stop

/-- Cutting a block leaves no free blocks that touch. -/
theorem Reserved.separate {size start : Word} {palign : Nat}
    (h : Reserved F F' size palign start got) (hF : ∀ b ∈ F, b.Proper)
    (honce : ∀ x, depthOf F x ≤ 1) (hsep : Separate F) : Separate F' := by
  obtain ⟨whole, F₀, rfl, hparts⟩ := h.parts
  have hold : ∀ {b}, b ∈ F₀ → b ∈ whole ::ₘ F₀ := Multiset.mem_cons_of_mem
  have hwhole : whole ∈ whole ::ₘ F₀ := Multiset.mem_cons_self _ _
  have hdisj : ∀ b ∈ F', b.stop ≤ got.start.toNat ∨ got.stop ≤ b.start.toNat := fun b hb =>
    disjoint_of_depth hb (h.free b hb) h.kept fun x => by
      rw [← h.depth x]
      exact honce x
  have hpos : ∀ b : Block, b.Proper → b.start.toNat < b.stop := fun b hb => by
    have := hb.pos
    rw [Block.stop]
    omega
  have hgot := hpos got h.kept
  have hwhole' := hpos whole (hF whole hwhole)
  intro a ha b hb e
  have ha' := hpos a (h.free a ha)
  have hb' := hpos b (h.free b hb)
  have hda := hdisj a ha
  have hdb := hdisj b hb
  rcases hparts a ha with hold_a | ⟨hstart, hstop⟩ | ⟨hstart, hstop⟩
  · rcases hparts b hb with hold_b | ⟨hstart', -⟩ | ⟨hstart', -⟩
    · exact hsep a (hold hold_a) b (hold hold_b) e
    · exact hsep a (hold hold_a) whole hwhole (by rw [e, hstart'])
    · omega
  · rcases hparts b hb with - | ⟨hstart', -⟩ | ⟨hstart', -⟩
    · omega
    · rw [hstart', ← hstart] at e
      omega
    · omega
  · rcases hparts b hb with hold_b | ⟨hstart', -⟩ | ⟨hstart', hstop'⟩
    · exact hsep whole hwhole b (hold hold_b) (by rw [← e, hstop])
    · rw [hstart'] at e
      omega
    · omega

/-! ## The loop -/

/-- The blocks that the loop of `kmalloc` has not tried yet. -/
def candidates (F : Multiset Block) (req : Block) : Multiset Block :=
  F.filter (fun b => ¬ BlockSize.mk b < ⟨req⟩)

/-- Each turn of the loop rules out a block. -/
theorem card_candidates_lt {req : Block} (hgot : got ∈ F) (hp : got.Proper)
    (hge : ¬ BlockSize.mk got < ⟨req⟩) :
    (candidates F { got with start := got.start + 1 }).card < (candidates F req).card := by
  have hnext : (got.start + 1).toNat = got.start.toNat + 1 := by
    rw [BitVec.toNat_add]
    change (got.start.toNat + 1) % 2 ^ 32 = _
    have := hp.hi
    omega
  refine Multiset.card_lt_card (lt_of_le_of_ne (Multiset.monotone_filter_right F fun b hb => ?_) ?_)
  · rw [BlockSize.lt_iff] at hb hge ⊢
    simp only [hnext] at hb
    omega
  · intro heq
    have hmem : got ∈ candidates F req := Multiset.mem_filter.mpr ⟨hgot, hge⟩
    rw [← heq] at hmem
    have hnot := (Multiset.mem_filter.mp hmem).2
    rw [BlockSize.lt_iff] at hnot
    exact hnot (.inr ⟨rfl, by simp only [hnext]; omega⟩)

theorem card_candidates (hF : Frees h F F') (req : Block) :
    (candidates F req).card < loopBound := by
  have hcard := hF.card_le
  refine (Multiset.card_le_card (Multiset.filter_le _ _)).trans_lt ?_
  change _ < 2 ^ 32
  omega

/-- After a block that fails the test, the search goes on with the blocks behind it. -/
theorem not_lt_next_iff (hp : got.Proper) (hge : ¬ BlockSize.mk got < ⟨req⟩)
    (hmin : ∀ b ∈ F, ¬ BlockSize.mk b < ⟨req⟩ → ¬ BlockSize.mk b < ⟨got⟩) (hb : b ∈ F) :
    ¬ BlockSize.mk b < ⟨{ got with start := got.start + 1 }⟩ ↔
      ¬ BlockSize.mk b < ⟨req⟩ ∧ b ≠ got := by
  have hnext : (got.start + 1).toNat = got.start.toNat + 1 := by
    rw [BitVec.toNat_add]
    change (got.start.toNat + 1) % 2 ^ 32 = _
    have := hp.hi
    omega
  have hmin := hmin b hb
  rw [BlockSize.lt_iff] at hge hmin ⊢
  rw [BlockSize.lt_iff]
  simp only [hnext]
  constructor
  · intro hnot
    refine ⟨by omega, ?_⟩
    rintro rfl
    omega
  · rintro ⟨hnot, hne⟩ hlt
    rw [BlockSize.lt_iff] at hmin
    exact hne (Block.ext_toNat (by omega) (by omega))

/-- The loop of `kmalloc` takes the chosen block, or there is none. -/
theorem reserve_search {Q : Word × Block → Heap → Prop} {E : Fault → Heap → Prop}
    (hF : ∀ b ∈ F, b.Proper) (fuel : Nat) (req : Block) (hfuel : (candidates F req).card < fuel)
    (htake : ∀ got F₀, F = got ::ₘ F₀ → Chosen F size palign req got →
      Triple (Frees · F₀ F₀) (do
        let b ← cutTail (payloadAt palign got) size got
        let b ← cutFront (payloadAt palign got) b
        pure (payloadAt palign got, b)) Q E)
    (hnone : (∀ b ∈ F, ¬ BlockSize.mk b < ⟨req⟩ → ¬ Accepts size palign b) →
      ∀ h, Frees h F F → E .outOfMemory h) :
    Triple (Frees · F F) (reserve size palign fuel req) Q E := by
  induction fuel generalizing req with
  | zero => omega
  | succ fuel ih =>
      refine triple_bind ((findGe_triple _).weaken (fun _ h => h) (fun _ _ h => h)
        (fun _ _ h => h.elim)) fun ptr => ?_
      rintro h ⟨hs, hcase⟩
      obtain ⟨rfl, hall⟩ | ⟨hne, k, hk, hnode, hge, hmin⟩ := hcase
      · exact hnone (fun b hb hge => absurd (hall ⟨b⟩ (mem_map_size.mpr hb)) hge) h hs
      obtain ⟨got, hgot, rfl⟩ := Multiset.mem_map.mp hk
      have hkey : treeSize.getKey ptr h = (.ok ⟨got⟩, h) := by
        rw [TreeRef.getKey, read_apply, hnode.2]
      have hmin : ∀ b ∈ F, ¬ BlockSize.mk b < ⟨req⟩ → ¬ BlockSize.mk b < ⟨got⟩ :=
        fun b hb hbge => hmin ⟨b⟩ (mem_map_size.mpr hb) hbge
      rw [if_neg hne, Ends.bind_of_ok hkey]
      change Ends (if payloadAt palign got + size > got.start + got.size then _ else _) h Q E
      by_cases hlarge : payloadAt palign got + size > got.start + got.size
      · rw [if_pos hlarge]
        have hiff := fun b hb => not_lt_next_iff (b := b) (hF got hgot) hge hmin hb
        have hlt := card_candidates_lt hgot (hF got hgot) hge
        have hfail : ∀ b, Accepts size palign b → b ≠ got := fun b haccept e =>
          haccept (e ▸ hlarge)
        refine ih { got with start := got.start + 1 } (by omega) (fun b F₀ heq hb => ?_)
          (fun hall => hnone fun b hb hbge haccept => ?_) h hs
        · refine htake b F₀ heq ⟨hb.mem, ((hiff b hb.mem).mp hb.not_lt).1, hb.accepts,
            fun b' hb' hge' haccept => ?_⟩
          exact hb.least b' hb' ((hiff b' hb').mpr ⟨hge', hfail b' haccept⟩) haccept
        · exact hall b hb ((hiff b hb).mpr ⟨hbge, hfail b haccept⟩) haccept
      · rw [if_neg hlarge]
        obtain ⟨F₀, heq⟩ := Multiset.exists_cons_of_mem hgot
        have hchosen : Chosen F size palign req got :=
          ⟨hgot, hge, hlarge, fun b' hb' hge' _ => hmin b' hb' hge'⟩
        have hcuts := htake got F₀ heq hchosen
        subst heq
        have hno : ∀ (e : Fault) (h : Heap), False → E e h := fun _ _ h => h.elim
        exact triple_bind ((eraseSize_triple got ptr).weaken (fun _ h => h) (fun _ _ h => h) hno)
          (fun _ => triple_bind ((findStart_triple (b := got) (by simp)).weaken (fun _ h => h)
            (fun _ _ h => h) hno) (fun q => triple_bind ((eraseStart_triple got q).weaken
              (fun _ h => h) (fun _ _ h => h) hno) fun _ => hcuts)) h ⟨hs, hnode⟩

/-- At most 16 bytes are kept on either side of header and payload. -/
def Snug (start size : Word) (kept : Block) : Prop :=
  start.toNat ≤ kept.start.toNat + 24 ∧ kept.stop ≤ start.toNat + size.toNat + 16

/-- Cutting a block in which the request fits. -/
theorem cuts_triple {F₀ : Multiset Block} (hF : ∀ b ∈ got ::ₘ F₀, b.Proper)
    (hfits : Fits size palign got) :
    Triple (Frees · F₀ F₀) (do
        let b ← cutTail (payloadAt palign got) size got
        let b ← cutFront (payloadAt palign got) b
        pure (payloadAt palign got, b))
      (fun r h => ∃ F', Frees h F' F' ∧ Reserved (got ::ₘ F₀) F' size palign r.1 r.2 ∧
        r.1 = payloadAt palign got ∧ Snug r.1 size r.2) NoNodes := by
  have hproper := hF got (Multiset.mem_cons_self _ _)
  have hF₀ : ∀ b ∈ F₀, b.Proper := fun b hb => hF b (Multiset.mem_cons_of_mem hb)
  obtain ⟨hhead, halign, hpay⟩ := hfits.payload hproper
  refine triple_bind (cutTail_triple hF₀ hproper hhead hpay) fun got₁ => ?_
  rintro h₁ ⟨F₁, hs₁, hcut₁, hst₁, hpay₁, hsnug₁, hpart₁⟩
  refine triple_bind (cutFront_triple (payloadAt palign got) hcut₁.free hcut₁.kept
    (by rw [hst₁]; exact hhead) (by omega)) (fun got₂ => ?_) h₁ hs₁
  rintro h₂ ⟨F₂, hs₂, hcut₂, hhead₂, hsnug₂, hend₂, hpart₂⟩
  have hcut := hcut₁.trans hcut₂
  refine ⟨F₂, hs₂, ⟨hcut.free, hcut.kept, fun x => ?_, hhead₂, by rw [hend₂]; exact hpay₁,
    halign, got, F₀, rfl, fun b hb => ?_⟩, rfl, hsnug₂, ?_⟩
  · rw [depthOf_cons, Nat.add_comm]
    exact hcut.depth x
  · obtain hb | hfront := hpart₂ b hb
    · obtain hb | htail := hpart₁ b hb
      · exact .inl hb
      · exact .inr (.inr ⟨htail.1.trans hend₂.symm, htail.2⟩)
    · exact .inr (.inl ⟨hfront.1.trans hst₁, hfront.2⟩)
  · rw [Block.stop, hend₂]
    exact hsnug₁

/-- The first request of `kmalloc`. -/
def firstReq (size : Word) : Block := ⟨0, size + sizeofBlock⟩

/-- The block that `kmalloc` takes, the address it returns and what it keeps of the block. -/
def Placed (F : Multiset Block) (size : Word) (palign : Nat) (start : Word) (kept : Block) : Prop :=
  ∃ b, Chosen F size palign (firstReq size) b ∧ start = payloadAt palign b ∧ Snug start size kept

/-- Why the search may fail: no block passes the test, or the cuts of the one that does need
too many nodes. -/
def SearchFailed (F : Multiset Block) (size : Word) (palign : Nat) (e : Fault) : Prop :=
  e = .outOfMemory ∧ (∀ b ∈ F, ¬ BlockSize.mk b < ⟨firstReq size⟩ → ¬ Accepts size palign b) ∨
    e = .outOfNodes ∧ ∃ b, Chosen F size palign (firstReq size) b

/-- Whatever the test means, a search that succeeds returns the address in the chosen block. -/
theorem reserve_chosen (hF : ∀ b ∈ F, b.Proper) :
    Triple (Frees · F F) (reserve size palign loopBound (firstReq size))
      (fun r _ => ∃ b, Chosen F size palign (firstReq size) b ∧ r.1 = payloadAt palign b)
      (fun _ _ => True) := by
  intro h hs
  refine reserve_search hF loopBound (firstReq size) (card_candidates hs _)
    (fun got F₀ _ hchosen => ?_) (fun _ _ _ => trivial) h hs
  intro h₀ _
  refine Ends.bind Ends.of_true fun b₁ h₁ _ => Ends.bind Ends.of_true fun b₂ h₂ _ => ?_
  exact ⟨got, hchosen, rfl⟩

/-- There is at most one chosen block. -/
theorem Chosen.eq {b' : Block} (h : Chosen F size palign req b) (h' : Chosen F size palign req b') :
    b = b' := by
  have hle := h.least b' h'.mem h'.not_lt h'.accepts
  have hge := h'.least b h.mem h.not_lt h.accepts
  rw [BlockSize.lt_iff] at hle hge
  exact Block.ext_toNat (by omega) (by omega)

/-- Where the test means that the request fits, the search reserves the chosen block. -/
theorem reserve_triple (hF : ∀ b ∈ F, b.Proper)
    (hfits : ∀ b, Chosen F size palign (firstReq size) b → Fits size palign b) :
    Triple (Frees · F F) (reserve size palign loopBound (firstReq size))
      (fun r h => ∃ F', Frees h F' F' ∧ Reserved F F' size palign r.1 r.2 ∧
        Placed F size palign r.1 r.2)
      (fun e _ => SearchFailed F size palign e) := by
  intro h hs
  refine reserve_search hF loopBound (firstReq size) (card_candidates hs _)
    (fun got F₀ heq hchosen => ?_) (fun hall _ _ => .inl ⟨rfl, hall⟩) h hs
  subst heq
  refine (cuts_triple hF (hfits got hchosen)).weaken (fun _ h => h) ?_
    fun _ _ he => .inr ⟨he, got, hchosen⟩
  rintro r h' ⟨F', hs', hres, hstart, hsnug⟩
  exact ⟨F', hs', hres, got, hchosen, hstart, hsnug⟩

/-- From the first request on, the test says whether the request fits. -/
theorem accepts_iff_fits (hb : b.Proper) (hsize : size.toNat + 8 < 2 ^ 32) (hp : palign ≤ 22) :
    (¬ BlockSize.mk b < ⟨firstReq size⟩ ∧ Accepts size palign b) ↔ Fits size palign b := by
  have hhi := hb.hi
  have hpow : 2 ^ palign ≤ 2 ^ 22 := Nat.pow_le_pow_right (by decide) hp
  obtain ⟨hle, hlt, -⟩ := alignUp_bounds (b.start.toNat + 8) palign
  have hreq : (firstReq size).size.toNat = size.toNat + 8 := by
    rw [firstReq, BitVec.toNat_add, show sizeofBlock.toNat = 8 from rfl]
    exact Nat.mod_eq_of_lt hsize
  have hnot : ¬ BlockSize.mk b < ⟨firstReq size⟩ ↔ size.toNat + 8 ≤ b.size.toNat := by
    rw [BlockSize.lt_iff, hreq, show (firstReq size).start.toNat = 0 from rfl]
    omega
  rw [hnot]
  constructor
  · rintro ⟨hroom, haccept⟩
    exact (exact_of_lt hb (by omega)).accepts_iff.mp haccept
  · intro hfits
    refine ⟨?_, (hfits.exact hb).accepts_iff.mpr hfits⟩
    rw [Fits, Block.stop] at hfits
    omega

/-- The least block, by size and then by start, that the request fits into. -/
structure LeastFit (F : Multiset Block) (size : Word) (palign : Nat) (b : Block) : Prop where
  mem : b ∈ F
  fits : Fits size palign b
  least : ∀ b' ∈ F, Fits size palign b' → ¬ BlockSize.mk b' < ⟨b⟩

/-- The sums that `kmalloc` computes are exact: for the request, for the blocks that the
search may visit, and for the cuts of a block that the request fits into. -/
structure SumsExact (F : Multiset Block) (size : Word) (palign : Nat) : Prop where
  request : (firstReq size).size.toNat = size.toNat + 8
  visited : ∀ b ∈ F, ¬ BlockSize.mk b < ⟨firstReq size⟩ →
    Exact size palign b ∧ (b.start + 1).toNat = b.start.toNat + 1
  tail : ∀ b ∈ F, Fits size palign b → (payloadAt palign b + size + sizeofBlock * 2).toNat =
    alignUp (b.start.toNat + 8) palign + size.toNat + 16
  front : ∀ b ∈ F, Fits size palign b →
    (b.start + (payloadAt palign b - b.start - sizeofBlock)).toNat =
      alignUp (b.start.toNat + 8) palign - 8

theorem sumsExact (hF : ∀ b ∈ F, b.Proper) (hsize : size.toNat + 8 < 2 ^ 32)
    (hpalign : palign ≤ 22) : SumsExact F size palign := by
  have hpow : 2 ^ palign ≤ 2 ^ 22 := Nat.pow_le_pow_right (by decide) hpalign
  have hreq : (firstReq size).size.toNat = size.toNat + 8 := by
    rw [firstReq, BitVec.toNat_add, show sizeofBlock.toNat = 8 from rfl]
    exact Nat.mod_eq_of_lt hsize
  refine ⟨hreq, fun b hb hge => ⟨exact_of_lt (hF b hb) ?_, ?_⟩, fun b hb hfits => ?_,
    fun b hb hfits => ?_⟩
  · have hhi := (hF b hb).hi
    obtain ⟨-, hlt, -⟩ := alignUp_bounds (b.start.toNat + 8) palign
    rw [BlockSize.lt_iff, hreq, show (firstReq size).start.toNat = 0 from rfl] at hge
    omega
  · have hhi := (hF b hb).hi
    have hpos := (hF b hb).pos
    rw [BitVec.toNat_add]
    exact Nat.mod_eq_of_lt (by rw [show (1 : Word).toNat = 1 from rfl]; omega)
  · have hhi := (hF b hb).hi
    have hend := (hfits.exact (hF b hb)).payloadEnd
    rw [Fits, Block.stop] at hfits
    rw [BitVec.toNat_add, hend, show (sizeofBlock * 2).toNat = 16 from rfl]
    exact Nat.mod_eq_of_lt (by omega)
  · have hpay := (hfits.exact (hF b hb)).payload
    have hhead := (hfits.payload (hF b hb)).1
    have h8 : sizeofBlock.toNat = 8 := rfl
    have hsub : (payloadAt palign b - b.start).toNat =
        (payloadAt palign b).toNat - b.start.toNat :=
      BitVec.toNat_sub_of_le (by rw [BitVec.le_def]; omega)
    have hrest : (payloadAt palign b - b.start - sizeofBlock).toNat =
        (payloadAt palign b).toNat - b.start.toNat - 8 := by
      rw [BitVec.toNat_sub_of_le (by rw [BitVec.le_def, hsub, h8]; omega), hsub, h8]
    have hlt := (payloadAt palign b).isLt
    rw [BitVec.toNat_add, hrest, ← hpay]
    omega

/-- Among blocks that are pairwise different in size or start, the least is unique. -/
theorem LeastFit.eq {b' : Block} (h : LeastFit F size palign b) (h' : LeastFit F size palign b') :
    b = b' := by
  have hle := h.least b' h'.mem h'.fits
  have hge := h'.least b h.mem h.fits
  rw [BlockSize.lt_iff] at hle hge
  exact Block.ext_toNat (by omega) (by omega)

theorem Chosen.leastFit (h : Chosen F size palign (firstReq size) b) (hF : ∀ b ∈ F, b.Proper)
    (hsize : size.toNat + 8 < 2 ^ 32) (hpalign : palign ≤ 22) : LeastFit F size palign b := by
  refine ⟨h.mem, (accepts_iff_fits (hF b h.mem) hsize hpalign).mp ⟨h.not_lt, h.accepts⟩,
    fun b' hb' hfits => ?_⟩
  obtain ⟨hge, haccept⟩ := (accepts_iff_fits (hF b' hb') hsize hpalign).mpr hfits
  exact h.least b' hb' hge haccept

/-- The pointer and the block behind it are as the best fit has it. -/
structure BestFit (b : Block) (size : Word) (palign : Nat) (p : Word) (kept : Block) : Prop where
  aligned : p.toNat = alignUp (b.start.toNat + 8) palign
  inside : b.start.toNat ≤ kept.start.toNat ∧ kept.stop ≤ b.stop
  header : kept.start.toNat + 8 ≤ p.toNat ∧ p.toNat - 8 ≤ kept.start.toNat + 16
  payload : p.toNat + size.toNat ≤ kept.stop ∧ kept.stop ≤ p.toNat + size.toNat + 16

/-! ## Requests whose sums may wrap -/

/-- The free block is not smaller than the request, and the test of `kmalloc` accepts it. -/
structure Tested (F : Multiset Block) (size : Word) (palign : Nat) (b : Block) : Prop where
  mem : b ∈ F
  large : size + sizeofBlock ≤ b.size
  accepts : Accepts size palign b

/-- The end of the payload, computed without bounds, is beyond the address space. -/
def Overflows (size : Word) (palign : Nat) (b : Block) : Prop :=
  2 ^ 32 ≤ alignUp (b.start.toNat + 8) palign + size.toNat

theorem not_lt_firstReq : ¬ BlockSize.mk b < ⟨firstReq size⟩ ↔ size + sizeofBlock ≤ b.size := by
  have hstart : (firstReq size).start.toNat = 0 := rfl
  have hsize : (firstReq size).size = size + sizeofBlock := rfl
  rw [BlockSize.lt_iff, hstart, hsize, BitVec.le_def]
  omega

/-- The search takes the least of the blocks that are tested. -/
theorem chosen_iff : Chosen F size palign (firstReq size) b ↔
    Tested F size palign b ∧ ∀ b', Tested F size palign b' → ¬ BlockSize.mk b' < ⟨b⟩ := by
  constructor
  · intro h
    refine ⟨⟨h.mem, not_lt_firstReq.mp h.not_lt, h.accepts⟩, fun b' hb' => ?_⟩
    exact h.least b' hb'.mem (not_lt_firstReq.mpr hb'.large) hb'.accepts
  · rintro ⟨h, hleast⟩
    refine ⟨h.mem, not_lt_firstReq.mpr h.large, h.accepts, fun b' hb' hge haccept => ?_⟩
    exact hleast b' ⟨hb', not_lt_firstReq.mp hge, haccept⟩

/-- Blocks that are not less than the chosen one come after it. -/
theorem Chosen.lt_of_ne {b' : Block} (h : Chosen F size palign (firstReq size) b)
    (hb' : Tested F size palign b') (hne : b' ≠ b) : BlockSize.mk b < ⟨b'⟩ := by
  have hnot := (chosen_iff.mp h).2 b' hb'
  rw [BlockSize.lt_iff] at hnot ⊢
  by_contra hlt
  exact hne (Block.ext_toNat (by omega) (by omega))

theorem cutTail_total (start size : Word) (got : Block) :
    Triple (fun h => ∃ F', Frees h F' F') (cutTail start size got)
      (fun _ h => ∃ F', Frees h F' F') NoNodes := by
  rintro h ⟨F', hs⟩
  refine triple_ite (P := (Frees · F' F')) (fun _ => ?_) (fun _ => ?_) h hs
  · exact triple_bind (insertFree_triple _) fun _ => (triple_pure _).weaken
      (fun _ hs => ⟨_, hs⟩) (fun _ _ h => h) (fun _ _ h => h)
  · exact (triple_pure _).weaken (fun _ hs => ⟨_, hs⟩) (fun _ _ h => h) (fun _ _ h => h)

theorem cutFront_total (start : Word) (got : Block) :
    Triple (fun h => ∃ F', Frees h F' F') (cutFront start got)
      (fun _ h => ∃ F', Frees h F' F') NoNodes := by
  rintro h ⟨F', hs⟩
  refine triple_ite (P := (Frees · F' F')) (fun _ => ?_) (fun _ => ?_) h hs
  · exact triple_bind (insertFree_triple _) fun _ => (triple_pure _).weaken
      (fun _ hs => ⟨_, hs⟩) (fun _ _ h => h) (fun _ _ h => h)
  · exact (triple_pure _).weaken (fun _ hs => ⟨_, hs⟩) (fun _ _ h => h) (fun _ _ h => h)

/-- Even when sums wrap, the search ends: with the address in the chosen block, or for lack of
nodes. -/
theorem reserve_total (hF : ∀ b ∈ F, b.Proper) (hb : Chosen F size palign (firstReq size) b) :
    Triple (Frees · F F) (reserve size palign loopBound (firstReq size))
      (fun r _ => r.1 = payloadAt palign b) NoNodes := by
  intro h hs
  refine reserve_search hF loopBound (firstReq size) (card_candidates hs _)
    (fun got F₀ _ hchosen => ?_) (fun hall _ _ => ?_) h hs
  · obtain rfl := hchosen.eq hb
    refine triple_bind ((cutTail_total _ _ _).weaken (fun _ hs => ⟨F₀, hs⟩) (fun _ _ h => h)
      (fun _ _ h => h)) fun got₁ => ?_
    refine triple_bind (cutFront_total _ got₁) fun got₂ => ?_
    exact (triple_pure _).weaken (fun _ _ => rfl) (fun _ _ h => h) (fun _ _ h => h)
  · exact absurd hb.accepts (hall b hb.mem hb.not_lt)

/-- The pointer is aligned, and header and payload lie in one free block of the heap. -/
structure WithinFree (F : Multiset Block) (size : Word) (palign : Nat) (p : Word) : Prop where
  ne_null : p ≠ null
  aligned : 2 ^ palign ∣ p.toNat
  inside : ∃ b ∈ F, kernelHeapBegin.toNat ≤ b.start.toNat ∧ b.stop ≤ kernelHeapEnd.toNat ∧
    b.start.toNat + 8 ≤ p.toNat ∧ p.toNat + size.toNat ≤ b.stop

/-- No sum wraps for the block that the search takes. -/
def NoWrap (F : Multiset Block) (size : Word) (palign : Nat) : Prop :=
  ∀ b, Chosen F size palign (firstReq size) b →
    size.toNat + 8 < 2 ^ 32 ∧ alignUp (b.start.toNat + 8) palign + size.toNat < 2 ^ 32

theorem NoWrap.fits (h : NoWrap F size palign) (hF : ∀ b ∈ F, b.Proper)
    (hb : Chosen F size palign (firstReq size) b) : Fits size palign b :=
  (exact_of_lt (hF b hb.mem) (h b hb).2).accepts_iff.mp hb.accepts

theorem Chosen.withinFree_iff (hb : Chosen F size palign (firstReq size) b)
    (hF : ∀ b ∈ F, b.Proper) (hpalign : palign ≤ 31) :
    WithinFree F size palign (payloadAt palign b) ↔ NoWrap F size palign := by
  have hproper := hF b hb.mem
  have hlo := hproper.lo
  constructor
  · rintro ⟨hne, -, b', hb', -, hend, -, hpay⟩ c hc
    obtain rfl := hc.eq hb
    have hstop : b'.stop ≤ 0xFFC00000 := hend
    have hp : (payloadAt palign c).toNat = _ := toNat_payloadAt hproper
    -- the next multiple is at most the size of the address space
    have hdvd : 2 ^ palign ∣ 2 ^ 32 := pow_dvd_pow 2 (by omega)
    have hhi := hproper.hi
    have hpos := hproper.pos
    have hle : alignUp (c.start.toNat + 8) palign ≤ 2 ^ 32 := alignUp_le (by omega) hdvd
    have hlt : alignUp (c.start.toNat + 8) palign < 2 ^ 32 := by
      refine lt_of_le_of_ne hle fun e => hne ?_
      apply Word.ext_toNat
      rw [hp, e]
      rfl
    rw [Nat.mod_eq_of_lt hlt] at hp
    rw [hp] at hpay
    omega
  · intro h
    have hfits := h.fits hF hb
    obtain ⟨hhead, halign, hpay⟩ := hfits.payload hproper
    refine ⟨fun e => ?_, halign, b, hb.mem, ?_, ?_, hhead, hpay⟩
    · rw [e] at hhead
      exact absurd hhead (by rw [show (null : Word).toNat = 0 from rfl]; omega)
    · exact hproper.lo
    · exact hproper.hi

end Jkos.Kheap
