import Jkos.Kheap.Pool
import Jkos.Lib.Cover

/-!
# Cutting and merging free blocks

`Frees h F F'` says that `tree_size` holds the blocks `F` and `tree_start` the blocks
`F'`. Taking a block out of the free ones and giving one back change how deep the free
blocks cover an address by exactly that block, through every cut and merge.
-/

namespace Jkos.Kheap

open Exec Cover

instance : Rbt.StrictWeakOrder BlockSize where
  irrefl a := by
    change ¬ (a.size < a.size ∨ (a.size = a.size ∧ a.start < a.start))
    simp only [BitVec.lt_def]
    omega
  trans a b c := by
    change (_ ∨ _) → (_ ∨ _) → (_ ∨ _)
    simp only [BitVec.lt_def, ← BitVec.toNat_inj]
    omega
  negTrans a b c := by
    change ¬ (_ ∨ _) → ¬ (_ ∨ _) → ¬ (_ ∨ _)
    simp only [BitVec.lt_def, ← BitVec.toNat_inj]
    omega

instance : Rbt.StrictWeakOrder BlockStart where
  irrefl a := by
    change ¬ (a.start < a.start ∨ (a.start = a.start ∧ a.size < a.size))
    simp only [BitVec.lt_def]
    omega
  trans a b c := by
    change (_ ∨ _) → (_ ∨ _) → (_ ∨ _)
    simp only [BitVec.lt_def, ← BitVec.toNat_inj]
    omega
  negTrans a b c := by
    change ¬ (_ ∨ _) → ¬ (_ ∨ _) → ¬ (_ ∨ _)
    simp only [BitVec.lt_def, ← BitVec.toNat_inj]
    omega

instance : Rbt.ConsistentLe BlockStart where
  le_iff a b := by
    change (_ ∨ _) ↔ ¬ (_ ∨ _)
    simp only [BitVec.lt_def, BitVec.le_def, ← BitVec.toNat_inj]
    omega

theorem BlockSize.lt_iff (a b : Block) : (BlockSize.mk a) < ⟨b⟩ ↔
    a.size.toNat < b.size.toNat ∨ (a.size.toNat = b.size.toNat ∧ a.start.toNat < b.start.toNat) := by
  change (a.size < b.size ∨ (a.size = b.size ∧ a.start < b.start)) ↔ _
  simp only [BitVec.lt_def, ← BitVec.toNat_inj]

theorem BlockStart.lt_iff (a b : Block) : (BlockStart.mk a) < ⟨b⟩ ↔
    a.start.toNat < b.start.toNat ∨ (a.start.toNat = b.start.toNat ∧ a.size.toNat < b.size.toNat) := by
  change (a.start < b.start ∨ (a.start = b.start ∧ a.size < b.size)) ↔ _
  simp only [BitVec.lt_def, ← BitVec.toNat_inj]

theorem BlockStart.le_iff (a b : Block) : (BlockStart.mk a) ≤ ⟨b⟩ ↔
    a.start.toNat < b.start.toNat ∨ (a.start.toNat = b.start.toNat ∧ a.size.toNat ≤ b.size.toNat) := by
  change (a.start < b.start ∨ (a.start = b.start ∧ a.size ≤ b.size)) ↔ _
  simp only [BitVec.lt_def, BitVec.le_def, ← BitVec.toNat_inj]

theorem Block.ext_toNat {a b : Block} (h₁ : a.start.toNat = b.start.toNat)
    (h₂ : a.size.toNat = b.size.toNat) : a = b := by
  cases a
  cases b
  simp only [Block.mk.injEq]
  exact ⟨Word.ext_toNat h₁, Word.ext_toNat h₂⟩

/-- The addresses of a block. -/
def Block.span (b : Block) : Span := ⟨b.start.toNat, b.start.toNat + b.size.toNat⟩

theorem Block.span_injective : Function.Injective Block.span := by
  intro a b h
  simp only [Block.span, Span.mk.injEq] at h
  exact Block.ext_toNat h.1 (by omega)

/-- The address behind a block. -/
def Block.stop (b : Block) : Nat := b.start.toNat + b.size.toNat

/-- No block ends where another starts. -/
def Separate (F : Multiset Block) : Prop := ∀ a ∈ F, ∀ b ∈ F, a.stop ≠ b.start.toNat

/-- A non-empty block inside the kernel heap. -/
structure Block.Proper (b : Block) : Prop where
  lo : 0xEFC00000 ≤ b.start.toNat
  hi : b.start.toNat + b.size.toNat ≤ 0xFFC00000
  pos : 0 < b.size.toNat

/-- How many of the blocks contain an address. -/
def depthOf (F : Multiset Block) (x : Nat) : Nat := depth (F.map Block.span) x

@[simp] theorem depthOf_cons (b : Block) (F : Multiset Block) (x : Nat) :
    depthOf (b ::ₘ F) x = b.span.at x + depthOf F x := by
  simp [depthOf]

@[simp] theorem depthOf_singleton (b : Block) (x : Nat) : depthOf {b} x = b.span.at x := by
  simp [depthOf, depth]

theorem depthOf_pos_of_mem {F : Multiset Block} {b : Block} {a : Nat} (hb : b ∈ F)
    (h₁ : b.start.toNat ≤ a) (h₂ : a < b.stop) : 0 < depthOf F a :=
  depth_pos_iff.mpr ⟨b.span, Multiset.mem_map_of_mem _ hb, h₁, h₂⟩

/-- Free blocks that touch nowhere are the maximal runs of free addresses. -/
theorem Separate.maximal {F : Multiset Block} (hsep : Separate F) (hF : ∀ b ∈ F, b.Proper)
    (honce : ∀ x, depthOf F x ≤ 1) : Maximal (F.map Block.span) := by
  refine ⟨fun a ha => ?_, honce, fun a ha b hb => ?_⟩
  · obtain ⟨c, hc, rfl⟩ := Multiset.mem_map.mp ha
    have := (hF c hc).pos
    simp only [Block.span]
    omega
  · obtain ⟨c, hc, rfl⟩ := Multiset.mem_map.mp ha
    obtain ⟨e, he, rfl⟩ := Multiset.mem_map.mp hb
    exact hsep c hc e he

/-- Free blocks that touch nowhere are determined by the free addresses. -/
theorem eq_of_depthOf {F G : Multiset Block} (hF : ∀ b ∈ F, b.Proper) (hG : ∀ b ∈ G, b.Proper)
    (honce : ∀ x, depthOf F x ≤ 1) (hsepF : Separate F) (hsepG : Separate G)
    (h : ∀ x, depthOf F x = depthOf G x) : F = G :=
  Multiset.map_injective Block.span_injective ((hsepF.maximal hF honce).ext
    (hsepG.maximal hG fun x => (h x).symm.trans_le (honce x)) h)

/-- A run of free addresses lies in one free block. -/
theorem Separate.exists_block {F : Multiset Block} (hsep : Separate F) (hF : ∀ b ∈ F, b.Proper)
    (honce : ∀ x, depthOf F x ≤ 1) {lo hi : Nat} (hlt : lo < hi)
    (hcov : ∀ x, lo ≤ x → x < hi → 0 < depthOf F x) :
    ∃ b ∈ F, b.start.toNat ≤ lo ∧ hi ≤ b.stop := by
  obtain ⟨a, ha, hlo, hhi⟩ := (hsep.maximal hF honce).exists_of_covered hlt hcov
  obtain ⟨b, hb, rfl⟩ := Multiset.mem_map.mp ha
  exact ⟨b, hb, hlo, hhi⟩

/-- The blocks in the two trees. -/
def Frees (h : Heap) (F F' : Multiset Block) : Prop :=
  Stores treeSize treeStart h (F.map BlockSize.mk) (F'.map BlockStart.mk)

/-- The trees hold one set of blocks. -/
theorem Frees.unique {h : Heap} {F F' G G' : Multiset Block} (hF : Frees h F F')
    (hG : Frees h G G') : F = G := by
  obtain ⟨t, -, ht, -⟩ := hF.trees
  obtain ⟨t', -, ht', -⟩ := hG.trees
  apply Multiset.map_injective (f := BlockSize.mk)
  · intro a b e
    exact congrArg BlockSize.toBlock e
  · rw [← ht.keys, ← ht'.keys, ht.holds.unique ht'.holds]

variable {F F' : Multiset Block} {h : Heap} {b got blk : Block}

/-- The trees never hold more blocks than the pool has nodes. -/
theorem Frees.card_le (hF : Frees h F F') : F.card + F'.card ≤ 1023 := by
  have hle := Stores.card_le hF
  rwa [Multiset.card_map, Multiset.card_map] at hle

theorem mem_map_size : (BlockSize.mk b) ∈ F.map BlockSize.mk ↔ b ∈ F := by
  simp

theorem mem_map_start : (BlockStart.mk b) ∈ F.map BlockStart.mk ↔ b ∈ F := by
  simp

/-! ## The tree operations on blocks -/

/-- Only the pool can make a tree operation fail. -/
def NoNodes (e : Fault) (_ : Heap) : Prop := e = .outOfNodes

theorem insertSize_triple (b : Block) :
    Triple (Frees · F F') (treeSize.insert ⟨b⟩) (fun _ h => Frees h (b ::ₘ F) F') NoNodes := by
  refine (insert_triple apart_treeSize _).weaken (fun _ h => h) (fun _ h hs => ?_) (fun _ _ h => h)
  simpa only [Frees, Multiset.map_cons] using hs

theorem insertStart_triple (b : Block) :
    Triple (Frees · F F') (treeStart.insert ⟨b⟩) (fun _ h => Frees h F (b ::ₘ F')) NoNodes := by
  refine (insert_triple apart_treeStart _).weaken (fun _ h => h.symm) (fun _ h hs => ?_)
    (fun _ _ h => h)
  simpa only [Frees, Multiset.map_cons] using hs.symm

/-- `insert` into one tree while the pool has a node. -/
theorem insertStart_room (b : Block) (hroom : F.card + F'.card ≠ 1023) :
    Triple (Frees · F F') (treeStart.insert ⟨b⟩) (fun _ h => Frees h F (b ::ₘ F'))
      (fun _ _ => False) := by
  have hroom : (F'.map BlockStart.mk).card + (F.map BlockSize.mk).card ≠ 1023 := by
    rwa [Multiset.card_map, Multiset.card_map, Nat.add_comm]
  refine (insert_room apart_treeStart _ hroom).weaken (fun _ h => h.symm) (fun _ h hs => ?_)
    (fun _ _ h => h)
  simpa only [Frees, Multiset.map_cons] using hs.symm

theorem insertSize_room (b : Block) (hroom : F.card + F'.card ≠ 1023) :
    Triple (Frees · F F') (treeSize.insert ⟨b⟩) (fun _ h => Frees h (b ::ₘ F) F')
      (fun _ _ => False) := by
  have hroom : (F.map BlockSize.mk).card + (F'.map BlockStart.mk).card ≠ 1023 := by
    rwa [Multiset.card_map, Multiset.card_map]
  refine (insert_room apart_treeSize _ hroom).weaken (fun _ h => h) (fun _ h hs => ?_)
    (fun _ _ h => h)
  simpa only [Frees, Multiset.map_cons] using hs

theorem insertSize_full (b : Block) (hfull : F.card + F'.card = 1023) :
    Triple (Frees · F F') (treeSize.insert ⟨b⟩) (fun _ _ => False) NoNodes := by
  have hfull : (F.map BlockSize.mk).card + (F'.map BlockStart.mk).card = 1023 := by
    rwa [Multiset.card_map, Multiset.card_map]
  exact (insert_full _ hfull).weaken (fun _ h => h) (fun _ _ h => h) (fun _ _ h => h)

theorem insertFree_triple (b : Block) :
    Triple (Frees · F F') (insertFree b) (fun _ h => Frees h (b ::ₘ F) (b ::ₘ F')) NoNodes :=
  triple_bind (insertSize_triple b) (fun _ => insertStart_triple b)

theorem eraseSize_triple (b : Block) (ptr : Word) :
    Triple (fun h => Frees h (b ::ₘ F) F' ∧ treeSize.HasNode h ptr ⟨b⟩) (treeSize.erase ptr)
      (fun _ h => Frees h F F') (fun _ _ => False) := by
  refine (erase_triple apart_treeSize ⟨b⟩ ptr).weaken (fun h hs => ?_) (fun _ _ h => h)
    (fun _ _ h => h)
  simpa only [Frees, Multiset.map_cons] using hs

theorem eraseStart_triple (b : Block) (ptr : Word) :
    Triple (fun h => Frees h F (b ::ₘ F') ∧ treeStart.HasNode h ptr ⟨b⟩) (treeStart.erase ptr)
      (fun _ h => Frees h F F') (fun _ _ => False) := by
  refine (erase_triple apart_treeStart ⟨b⟩ ptr).weaken (fun h hs => ⟨?_, hs.2⟩)
    (fun _ _ h => h.symm) (fun _ _ h => h)
  simpa only [Frees, Multiset.map_cons] using hs.1.symm

/-- A search in `tree_size` for a block that is there finds its node. -/
theorem findSize_triple (hb : b ∈ F) :
    Triple (Frees · F F') (treeSize.findGe ⟨b⟩)
      (fun p h => Frees h F F' ∧ treeSize.HasNode h p ⟨b⟩) (fun _ _ => False) := by
  refine (findGe_triple _).weaken (fun _ h => h) (fun p h hs => ⟨hs.1, ?_⟩) (fun _ _ h => h)
  rcases hs.2 with ⟨-, hall⟩ | ⟨-, k, hk, hnode, hge, hmin⟩
  · exact absurd (hall _ (mem_map_size.mpr hb)) (Rbt.StrictWeakOrder.irrefl _)
  · obtain ⟨c, hc, rfl⟩ := Multiset.mem_map.mp hk
    have hle := hmin ⟨b⟩ (mem_map_size.mpr hb) (Rbt.StrictWeakOrder.irrefl _)
    rw [BlockSize.lt_iff] at hge hle
    have hcb : c = b := Block.ext_toNat (by omega) (by omega)
    rw [← hcb]
    exact hnode

/-- A search in `tree_start` for a block that is there finds its node. -/
theorem findStart_triple (hb : b ∈ F') :
    Triple (Frees · F F') (treeStart.findGe ⟨b⟩)
      (fun p h => Frees h F F' ∧ treeStart.HasNode h p ⟨b⟩) (fun _ _ => False) := by
  refine (findGe_triple _).weaken (fun _ h => h.symm) (fun p h hs => ⟨hs.1.symm, ?_⟩)
    (fun _ _ h => h)
  rcases hs.2 with ⟨-, hall⟩ | ⟨-, k, hk, hnode, hge, hmin⟩
  · exact absurd (hall _ (mem_map_start.mpr hb)) (Rbt.StrictWeakOrder.irrefl _)
  · obtain ⟨c, hc, rfl⟩ := Multiset.mem_map.mp hk
    have hle := hmin ⟨b⟩ (mem_map_start.mpr hb) (Rbt.StrictWeakOrder.irrefl _)
    rw [BlockStart.lt_iff] at hge hle
    have hcb : c = b := Block.ext_toNat (by omega) (by omega)
    rw [← hcb]
    exact hnode

theorem Block.Proper.toNat_end (hb : b.Proper) :
    (b.start + b.size).toNat = b.start.toNat + b.size.toNat := by
  rw [BitVec.toNat_add]
  have := hb.hi
  omega

/-- A free block does not overlap a block that nothing else covers. -/
theorem disjoint_of_depth {blk : Block} (hb : b ∈ F) (hp : b.Proper) (hblk : blk.Proper)
    (hdepth : ∀ x, depthOf F x + blk.span.at x ≤ 1) :
    b.start.toNat + b.size.toNat ≤ blk.start.toNat ∨
      blk.start.toNat + blk.size.toNat ≤ b.start.toNat := by
  obtain ⟨F₀, rfl⟩ := Multiset.exists_cons_of_mem hb
  by_contra hoverlap
  rw [not_or, Nat.not_le, Nat.not_le] at hoverlap
  have hpos := hp.pos
  have hpos' := hblk.pos
  have hx := hdepth (max b.start.toNat blk.start.toNat)
  rw [depthOf_cons, Span.at_of_mem (a := b.span) (by simp only [Block.span]; omega),
    Span.at_of_mem (a := blk.span) (by simp only [Block.span]; omega)] at hx
  omega

/-! ## Moving blocks -/

/-- Blocks were moved between the free ones and the one in hand. -/
structure Cut (F : Multiset Block) (got : Block) (F' : Multiset Block) (got' : Block) : Prop where
  free : ∀ b ∈ F', b.Proper
  kept : got'.Proper
  depth : ∀ x, depthOf F x + got.span.at x = depthOf F' x + got'.span.at x

theorem Cut.refl (hF : ∀ b ∈ F, b.Proper) (hgot : got.Proper) : Cut F got F got :=
  ⟨hF, hgot, fun _ => rfl⟩

theorem Cut.trans {F₁ F₂ : Multiset Block} {got₁ got₂ : Block} (h : Cut F got F₁ got₁)
    (h' : Cut F₁ got₁ F₂ got₂) : Cut F got F₂ got₂ :=
  ⟨h'.free, h'.kept, fun x => (h.depth x).trans (h'.depth x)⟩

/-- Cutting a block into the part kept and a part that becomes free. -/
theorem Cut.of_split {rest kept : Block} (hF : ∀ b ∈ F, b.Proper) (hrest : rest.Proper)
    (hkept : kept.Proper) (h : ∀ x, got.span.at x = rest.span.at x + kept.span.at x) :
    Cut F got (rest ::ₘ F) kept := by
  refine ⟨fun b hb => ?_, hkept, fun x => ?_⟩
  · rcases Multiset.mem_cons.mp hb with rfl | hb
    · exact hrest
    · exact hF b hb
  · have := h x
    rw [depthOf_cons]
    omega

/-! ## Giving a block back -/

/-- Joining two adjacent blocks. -/
theorem Cut.of_join {F₀ : Multiset Block} {c blk joined : Block}
    (hF : ∀ b ∈ c ::ₘ F₀, b.Proper) (hjoined : joined.Proper)
    (h : ∀ x, joined.span.at x = c.span.at x + blk.span.at x) : Cut (c ::ₘ F₀) blk F₀ joined := by
  refine ⟨fun b hb => hF b (Multiset.mem_cons_of_mem hb), hjoined, fun x => ?_⟩
  have := h x
  rw [depthOf_cons]
  omega

/-- Free blocks that share an address are one. -/
theorem eq_of_overlap {a b : Block} {x : Nat} (ha : a ∈ F) (hb : b ∈ F)
    (hdepth : ∀ x, depthOf F x ≤ 1) (h₁ : a.start.toNat ≤ x ∧ x < a.stop)
    (h₂ : b.start.toNat ≤ x ∧ x < b.stop) : a = b :=
  Block.span_injective (Cover.eq_of_once hdepth (Multiset.mem_map_of_mem _ ha)
    (Multiset.mem_map_of_mem _ hb) h₁ h₂)

/-- What the first merge of `kfree` may do, whatever the header. -/
theorem mergeBefore_cases (addr : Word) (hF : ∀ b ∈ F, b.Proper)
    (honce : ∀ x, depthOf F x ≤ 1) :
    Triple (Frees · F F) (mergeBefore addr blk)
      (fun r h =>
        (∃ got F₀, F = got ::ₘ F₀ ∧ got.stop = blk.start.toNat ∧
          (∀ b ∈ F, BlockStart.mk b ≤ ⟨blk⟩ → b.stop ≤ blk.start.toNat) ∧
          r = (⟨got.start, blk.size + got.size⟩, Word.max (pageOf blk.start) got.start) ∧
          Frees h F₀ F₀) ∨
        ((∀ b ∈ F, BlockStart.mk b ≤ ⟨blk⟩ → b.stop < blk.start.toNat) ∧ r = (blk, blk.start) ∧
          Frees h F F))
      (fun e h => e = .invalidFree addr ∧ Frees h F F ∧
        ∃ b ∈ F, BlockStart.mk b ≤ ⟨blk⟩ ∧ blk.start.toNat < b.stop) := by
  have hnone : ∀ (e : Fault) (h : Heap), False → e = .invalidFree addr ∧ Frees h F F ∧
      ∃ b ∈ F, BlockStart.mk b ≤ ⟨blk⟩ ∧ blk.start.toNat < b.stop := fun _ _ h => h.elim
  refine triple_bind ((findLe_triple _).weaken (fun _ h => h.symm) (fun _ _ h => h) hnone)
    fun ptr => ?_
  rintro h ⟨hs, hcase⟩
  have hs : Frees h F F := hs.symm
  obtain ⟨rfl, hall⟩ | ⟨hne, k, hk, hnode, hle, hmax⟩ := hcase
  · exact .inr ⟨fun b hb hle => absurd hle (hall ⟨b⟩ (mem_map_start.mpr hb)), rfl, hs⟩
  obtain ⟨got, hgot, rfl⟩ := Multiset.mem_map.mp hk
  have hkey : treeStart.getKey ptr h = (.ok ⟨got⟩, h) := by
    rw [TreeRef.getKey, read_apply, hnode.2]
  have hpos := (hF got hgot).pos
  have hend : (got.start + got.size).toNat = got.stop := (hF got hgot).toNat_end
  rw [if_neg hne, Ends.bind_of_ok hkey]
  by_cases hover : got.start + got.size > blk.start
  · simp only [if_pos hover]
    rw [gt_iff_lt, BitVec.lt_def, hend] at hover
    exact ⟨rfl, hs, got, hgot, hle, hover⟩
  simp only [if_neg hover]
  rw [gt_iff_lt, BitVec.lt_def, hend] at hover
  -- the block that was found is the last one that does not come behind `blk`
  have hlast : ∀ b ∈ F, BlockStart.mk b ≤ ⟨blk⟩ → b.stop ≤ got.stop := by
    intro b hb hble
    have hmost := hmax ⟨b⟩ (mem_map_start.mpr hb) hble
    have hposb := (hF b hb).pos
    rw [BlockStart.lt_iff] at hmost
    by_contra hlarge
    have hsame : got = b := by
      refine eq_of_overlap (x := got.start.toNat) hgot hb honce ?_ ?_
      · rw [Block.stop]
        omega
      · rw [Block.stop] at hlarge ⊢
        rw [Block.stop] at hlarge
        omega
    rw [hsame] at hlarge
    omega
  by_cases hadj : got.start + got.size = blk.start
  · rw [if_pos hadj]
    have hstop : got.stop = blk.start.toNat := by rw [← hend, hadj]
    obtain ⟨F₀, rfl⟩ := Multiset.exists_cons_of_mem hgot
    refine triple_bind ((eraseStart_triple got ptr).weaken (fun _ h => h) (fun _ _ h => h) hnone)
      (fun _ => triple_bind ((findSize_triple (b := got) (by simp)).weaken (fun _ h => h)
        (fun _ _ h => h) hnone) fun q => triple_bind ((eraseSize_triple got q).weaken
          (fun _ h => h) (fun _ _ h => h) hnone) fun _ => ?_) h ⟨hs, hnode⟩
    exact (triple_pure _).weaken (fun h hs => .inl ⟨got, F₀, rfl, hstop,
      fun b hb hble => (hlast b hb hble).trans_eq hstop, rfl, hs⟩) (fun _ _ h => h)
      (fun _ _ h => h)
  · rw [if_neg hadj]
    refine .inr ⟨fun b hb hble => (hlast b hb hble).trans_lt ?_, rfl, hs⟩
    have hstop : got.stop ≠ blk.start.toNat := fun e => hadj (Word.ext_toNat (hend.trans e))
    omega

/-- What the second merge of `kfree` may do. -/
theorem mergeAfter_cases (addr freeEnd : Word) :
    Triple (Frees · F F) (mergeAfter addr blk freeEnd)
      (fun r h =>
        (∃ got F₀, F = got ::ₘ F₀ ∧ blk.start + blk.size = got.start ∧
          ¬ BlockStart.mk got < ⟨blk⟩ ∧ (∀ b ∈ F, ¬ BlockStart.mk b < ⟨blk⟩ → got.start ≤ b.start) ∧
          r = (⟨blk.start, blk.size + got.size⟩,
            Word.min (getAligned freeEnd 12) (blk.start + blk.size)) ∧ Frees h F₀ F₀) ∨
        ((∀ b ∈ F, ¬ BlockStart.mk b < ⟨blk⟩ → blk.start + blk.size < b.start) ∧
          r = (blk, freeEnd) ∧ Frees h F F))
      (fun e h => e = .invalidFree addr ∧ Frees h F F ∧
        ∃ b ∈ F, ¬ BlockStart.mk b < ⟨blk⟩ ∧ b.start < blk.start + blk.size) := by
  have hnone : ∀ (e : Fault) (h : Heap), False → e = .invalidFree addr ∧ Frees h F F ∧
      ∃ b ∈ F, ¬ BlockStart.mk b < ⟨blk⟩ ∧ b.start < blk.start + blk.size := fun _ _ h => h.elim
  refine triple_bind ((findGe_triple _).weaken (fun _ h => h.symm) (fun _ _ h => h) hnone)
    fun ptr => ?_
  rintro h ⟨hs, hcase⟩
  have hs : Frees h F F := hs.symm
  obtain ⟨rfl, hall⟩ | ⟨hne, k, hk, hnode, hge, hmin⟩ := hcase
  · exact .inr ⟨fun b hb hge => absurd (hall ⟨b⟩ (mem_map_start.mpr hb)) hge, rfl, hs⟩
  obtain ⟨got, hgot, rfl⟩ := Multiset.mem_map.mp hk
  have hkey : treeStart.getKey ptr h = (.ok ⟨got⟩, h) := by
    rw [TreeRef.getKey, read_apply, hnode.2]
  rw [if_neg hne, Ends.bind_of_ok hkey]
  by_cases hover : blk.start + blk.size > got.start
  · simp only [if_pos hover]
    exact ⟨rfl, hs, got, hgot, hge, hover⟩
  simp only [if_neg hover]
  by_cases hadj : blk.start + blk.size = got.start
  · rw [if_pos hadj]
    obtain ⟨F₀, rfl⟩ := Multiset.exists_cons_of_mem hgot
    refine triple_bind ((eraseStart_triple got ptr).weaken (fun _ h => h) (fun _ _ h => h) hnone)
      (fun _ => triple_bind ((findSize_triple (b := got) (by simp)).weaken (fun _ h => h)
        (fun _ _ h => h) hnone) fun q => triple_bind ((eraseSize_triple got q).weaken
          (fun _ h => h) (fun _ _ h => h) hnone) fun _ => ?_) h ⟨hs, hnode⟩
    refine (triple_pure _).weaken (fun h hs => .inl ⟨got, F₀, rfl, hadj, hge,
      fun b hb hbge => ?_, rfl, hs⟩) (fun _ _ h => h) (fun _ _ h => h)
    have hleast := hmin ⟨b⟩ (mem_map_start.mpr hb) hbge
    rw [BlockStart.lt_iff] at hleast
    rw [BitVec.le_def]
    omega
  · rw [if_neg hadj]
    refine .inr ⟨fun b hb hbge => ?_, rfl, hs⟩
    -- the block that was found is the first one that does not come before `blk`
    have hleast := hmin ⟨b⟩ (mem_map_start.mpr hb) hbge
    rw [BlockStart.lt_iff] at hleast
    rw [← BitVec.toNat_inj] at hadj
    rw [gt_iff_lt, BitVec.lt_def] at hover
    rw [BitVec.lt_def]
    omega

/-- What the first merge of `kfree` promises. -/
structure MergedBefore (F F' : Multiset Block) (blk joined : Block) (freeStart : Word) : Prop where
  cut : Cut F blk F' joined
  sub : F' ⊆ F
  start_le : joined.start.toNat ≤ blk.start.toNat
  stop_eq : joined.stop = blk.stop
  freeStart : freeStart.toNat = max (pageOf blk.start).toNat joined.start.toNat
  apart : Separate F → ∀ a ∈ F', a.stop ≠ joined.start.toNat

theorem mergeBefore_triple {blk : Block} (addr : Word) (hF : ∀ b ∈ F, b.Proper)
    (hblk : blk.Proper) (hdepth : ∀ x, depthOf F x + blk.span.at x ≤ 1) :
    Triple (Frees · F F) (mergeBefore addr blk)
      (fun r h => ∃ F', Frees h F' F' ∧ MergedBefore F F' blk r.1 r.2)
      (fun _ _ => False) := by
  have hself : blk.start.toNat = max (pageOf blk.start).toNat blk.start.toNat := by
    rw [toNat_pageOf]
    omega
  have honce : ∀ x, depthOf F x ≤ 1 := fun x => (Nat.le_add_right _ _).trans (hdepth x)
  have hpos' := hblk.pos
  refine (mergeBefore_cases addr hF honce).weaken (fun _ h => h) ?_ ?_
  · rintro _ h (⟨got, F₀, rfl, hadj, -, rfl, hs⟩ | ⟨hbefore, rfl, hs⟩)
    · have hproper := hF got (Multiset.mem_cons_self _ _)
      have hpos := hproper.pos
      have hadj : got.start.toNat + got.size.toNat = blk.start.toNat := hadj
      have hsize : (blk.size + got.size).toNat = blk.size.toNat + got.size.toNat := by
        rw [BitVec.toNat_add]
        have := hblk.hi
        omega
      refine ⟨F₀, hs, ?_, fun _ => Multiset.mem_cons_of_mem, by simp only; omega, ?_, ?_,
        fun hsep a ha => hsep a (Multiset.mem_cons_of_mem ha) got (Multiset.mem_cons_self _ _)⟩
      · refine Cut.of_join hF ⟨hproper.lo, ?_, ?_⟩ fun x => ?_
        · simp only [hsize]
          have := hblk.hi
          omega
        · simp only [hsize]
          omega
        · simp only [Block.span, hsize]
          rw [Span.at_split (m := blk.start.toNat) (by omega) (by omega), hadj]
          congr 3
          omega
      · simp only [Block.stop, hsize]
        omega
      · simp only [Word.max]
        split
        · next hgt => exact (Nat.max_eq_left (Nat.le_of_lt (BitVec.lt_def.mp hgt))).symm
        · next hle =>
            refine (Nat.max_eq_right ?_).symm
            rw [gt_iff_lt, BitVec.lt_def] at hle
            omega
    · refine ⟨F, hs, Cut.refl hF hblk, fun _ h => h, Nat.le_refl _, rfl, hself, fun _ a ha e => ?_⟩
      change a.stop = blk.start.toNat at e
      have hlt := hbefore a ha (by
        rw [BlockStart.le_iff]
        have := (hF a ha).pos
        rw [Block.stop] at e
        omega)
      omega
  · rintro e h ⟨-, -, b, hb, hle, hover⟩
    have hdisj := disjoint_of_depth hb (hF b hb) hblk hdepth
    rw [BlockStart.le_iff] at hle
    rw [Block.stop] at hover
    omega

/-- What the second merge of `kfree` promises. -/
structure MergedAfter (F F' : Multiset Block) (blk joined : Block) (freeEnd : Word) : Prop where
  cut : Cut F blk F' joined
  sub : F' ⊆ F
  start_eq : joined.start = blk.start
  le_stop : blk.stop ≤ joined.stop
  freeEnd : freeEnd.toNat = blk.stop
  apart : Separate F → ∀ b ∈ F', joined.stop ≠ b.start.toNat

/-- The end of the range is rounded up, but never past the block. -/
theorem min_getAligned {e : Word} (h : e.toNat ≤ 0xFFC00000) : Word.min (getAligned e 12) e = e := by
  have hround : (getAligned e 12).toNat = (e.toNat + 2 ^ 12 - 1) / 2 ^ 12 * 2 ^ 12 :=
    toNat_getAligned (by omega)
  have hle : ¬ getAligned e 12 < e := by
    rw [BitVec.lt_def, hround]
    omega
  rw [Word.min, if_neg hle]

theorem mergeAfter_triple {blk : Block} (addr : Word) (hF : ∀ b ∈ F, b.Proper)
    (hblk : blk.Proper) (hdepth : ∀ x, depthOf F x + blk.span.at x ≤ 1) :
    Triple (Frees · F F) (mergeAfter addr blk (blk.start + blk.size))
      (fun r h => ∃ F', Frees h F' F' ∧ MergedAfter F F' blk r.1 r.2)
      (fun _ _ => False) := by
  have hpos' := hblk.pos
  have hend := hblk.toNat_end
  refine (mergeAfter_cases addr _).weaken (fun _ h => h) ?_ ?_
  · rintro _ h (⟨got, F₀, rfl, hadj, -, -, rfl, hs⟩ | ⟨hafter, rfl, hs⟩)
    · have hproper := hF got (Multiset.mem_cons_self _ _)
      have hadj' : blk.start.toNat + blk.size.toNat = got.start.toNat := by rw [← hend, hadj]
      have hhi := hproper.hi
      have hsize : (blk.size + got.size).toNat = blk.size.toNat + got.size.toNat := by
        rw [BitVec.toNat_add]
        omega
      have hstop : (⟨blk.start, blk.size + got.size⟩ : Block).stop = got.stop := by
        simp only [Block.stop, hsize]
        omega
      refine ⟨F₀, hs, ?_, fun _ => Multiset.mem_cons_of_mem, rfl, ?_, ?_, fun hsep b hb => ?_⟩
      · refine Cut.of_join hF ⟨hblk.lo, ?_, ?_⟩ fun x => ?_
        · simp only [hsize]
          omega
        · simp only [hsize]
          omega
        · simp only [Block.span, hsize]
          rw [Span.at_split (m := got.start.toNat) (by omega) (by omega), ← hadj', Nat.add_comm]
          congr 3
          omega
      · rw [hstop, Block.stop, Block.stop]
        omega
      · rw [min_getAligned (by rw [hend]; exact hblk.hi), hend, Block.stop]
      · rw [hstop]
        exact hsep got (Multiset.mem_cons_self _ _) b (Multiset.mem_cons_of_mem hb)
    · refine ⟨F, hs, Cut.refl hF hblk, fun _ h => h, rfl, Nat.le_refl _, hend, fun _ b hb e => ?_⟩
      change blk.stop = b.start.toNat at e
      rw [Block.stop] at e
      have hlt := hafter b hb (by
        rw [BlockStart.lt_iff]
        omega)
      rw [BitVec.lt_def] at hlt
      omega
  · rintro e h ⟨-, -, b, hb, hge, hover⟩
    have hdisj := disjoint_of_depth hb (hF b hb) hblk hdepth
    have hpos := (hF b hb).pos
    rw [BlockStart.lt_iff] at hge
    rw [BitVec.lt_def] at hover
    omega

/-- What `kfree` promises about the trees and the range of pages that it frees. -/
structure Released (F F' : Multiset Block) (blk : Block) (freeStart freeEnd : Word) : Prop where
  free : ∀ b ∈ F', b.Proper
  depth : ∀ x, depthOf F' x = depthOf F x + blk.span.at x
  separate : Separate F → Separate F'
  /-- The block is part of a free one, which the range does not leave. -/
  range : ∃ m ∈ F', m.start.toNat ≤ blk.start.toNat ∧ blk.stop ≤ m.stop ∧
    freeStart.toNat = max (pageOf blk.start).toNat m.start.toNat ∧ freeEnd.toNat = blk.stop

theorem release_triple {blk : Block} (addr : Word) (hF : ∀ b ∈ F, b.Proper) (hblk : blk.Proper)
    (hdepth : ∀ x, depthOf F x + blk.span.at x ≤ 1) :
    Triple (Frees · F F) (release addr blk)
      (fun r h => ∃ F', Frees h F' F' ∧ Released F F' blk r.1 r.2) NoNodes := by
  have hend := hblk.toNat_end
  have hok : ¬ (blk.start < kernelHeapBegin ∨ blk.start + blk.size > kernelHeapEnd) := by
    rw [gt_iff_lt, BitVec.lt_def, BitVec.lt_def, hend, kernelHeapBegin_eq, kernelHeapEnd_eq]
    have hlo := hblk.lo
    have hhi := hblk.hi
    change ¬ (blk.start.toNat < 0xEFC00000 ∨ 0xFFC00000 < blk.start.toNat + blk.size.toNat)
    omega
  rw [release, if_neg hok]
  refine triple_bind ((mergeBefore_triple addr hF hblk hdepth).weaken (fun _ h => h)
    (fun _ _ h => h) (fun _ _ h => h.elim)) fun r₁ => ?_
  rintro h₁ ⟨F₁, hs₁, hbefore⟩
  have hdepth₁ : ∀ x, depthOf F₁ x + r₁.1.span.at x ≤ 1 := fun x => by
    rw [← hbefore.cut.depth x]
    exact hdepth x
  have hstop₁ : blk.start + blk.size = r₁.1.start + r₁.1.size := by
    apply Word.ext_toNat
    rw [hend, hbefore.cut.kept.toNat_end]
    exact hbefore.stop_eq.symm
  change Ends (mergeAfter addr r₁.1 (blk.start + blk.size) >>= _) h₁ _ _
  rw [hstop₁]
  refine triple_bind ((mergeAfter_triple addr hbefore.cut.free hbefore.cut.kept hdepth₁).weaken
    (fun _ h => h) (fun _ _ h => h) (fun _ _ h => h.elim)) (fun r₂ => ?_) h₁ hs₁
  rintro h₂ ⟨F₂, hs₂, hafter⟩
  refine triple_bind (insertStart_triple r₂.1) (fun _ => triple_bind (insertSize_triple r₂.1)
    fun _ => ?_) h₂ hs₂
  refine (triple_pure _).weaken (fun h hs => ⟨r₂.1 ::ₘ F₂, hs, ?_, fun x => ?_, fun hsep => ?_,
    r₂.1, by simp, ?_, ?_, ?_, ?_⟩) (fun _ _ h => h) (fun _ _ h => h)
  · intro b hb
    obtain rfl | hb := Multiset.mem_cons.mp hb
    · exact hafter.cut.kept
    · exact hafter.cut.free b hb
  · rw [depthOf_cons, Nat.add_comm, ← hafter.cut.depth x, ← hbefore.cut.depth x]
  · have hsep₁ : Separate F₁ := fun a ha b hb => hsep a (hbefore.sub ha) b (hbefore.sub hb)
    intro a ha b hb
    obtain rfl | ha := Multiset.mem_cons.mp ha
    · obtain rfl | hb := Multiset.mem_cons.mp hb
      · have := hafter.cut.kept.pos
        rw [Block.stop]
        omega
      · exact hafter.apart hsep₁ b hb
    · obtain rfl | hb := Multiset.mem_cons.mp hb
      · rw [hafter.start_eq]
        exact hbefore.apart hsep a (hafter.sub ha)
      · exact hsep₁ a (hafter.sub ha) b (hafter.sub hb)
  · rw [hafter.start_eq]
    exact hbefore.start_le
  · rw [← hbefore.stop_eq]
    exact hafter.le_stop
  · rw [hafter.start_eq]
    exact hbefore.freeStart
  · rw [← hbefore.stop_eq]
    exact hafter.freeEnd

end Jkos.Kheap
