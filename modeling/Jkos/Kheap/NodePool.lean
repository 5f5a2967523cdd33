import Jkos.Kheap.Boot

/-!
# Histories of the node pool

Nodes are carved from `static_mem` one behind the other and kept on a stack when they are
given back. Whatever the two trees ask for, a node belongs to one of them or to the stack,
so the stack has room for every node that can come back.
-/

namespace Jkos.Kheap

open Page

variable {st : Statics} {used : List Word} {p p' : Pool} {a b : Word}

/-- The calls of `Tree_mm::alloc` and `Tree_mm::free` since the start, with the nodes that
are allocated now, latest first. Only nodes that are allocated are freed. -/
inductive PoolRun (st : Statics) : List Word → Pool → Prop
  | start : PoolRun st [] ⟨st.staticMem, 0, []⟩
  | alloc {used : List Word} {p p' : Pool} {a : Word} (h : PoolRun st used p)
      (hrun : p.alloc = .ok (a, p')) : PoolRun st (a :: used) p'
  | free {used : List Word} {p : Pool} {a : Word} (h : PoolRun st used p) (ha : a ∈ used) :
      PoolRun st (used.erase a) (p.free a)

/-- The node lies in `static_mem`, at an even address. -/
structure InStaticMem (st : Statics) (a : Word) : Prop where
  even : IsEven a
  lower : st.staticMem.toNat ≤ a.toNat
  upper : a.toNat + treeNodeSize ≤ st.staticMem.toNat + staticMemSize

/-- The two nodes do not overlap. -/
def NodesApart (a b : Word) : Prop :=
  a.toNat + treeNodeSize ≤ b.toNat ∨ b.toNat + treeNodeSize ≤ a.toNat

/-- The state of the pool while the nodes `used` are allocated. -/
structure PoolSound (st : Statics) (used : List Word) (p : Pool) : Prop where
  inside : ∀ a ∈ used, InStaticMem st a
  apart : used.Pairwise NodesApart
  /-- `freed` is an array of `STATIC_SIZE` slots. -/
  stack : p.freed.length ≤ 1024
  carved : p.nstaticMem = treeNodeSize * (used.length + p.freed.length)
  alloc : p.freed ≠ [] ∨ used.length < 1023 → ∃ a p', p.alloc = .ok (a, p')

theorem PoolRun.poolOk (h : PoolRun st used p) :
    PoolOk p used ∧ p.staticMem = st.staticMem := by
  induction h with
  | start =>
      exact ⟨⟨st.staticMem_ok.1, st.staticMem_ok.2, st.fits, 0, rfl, by decide, .nil⟩, rfl⟩
  | alloc _ hrun ih =>
      obtain ⟨hok, hmem⟩ := ih
      obtain ⟨a, p', halloc, hal⟩ | herr := hok.alloc
      · cases hrun.symm.trans halloc
        exact ⟨hal.pool, hal.staticMem.trans hmem⟩
      · cases hrun.symm.trans herr
  | free _ ha ih =>
      obtain ⟨hok, hmem⟩ := ih
      exact ⟨(hok.perm (List.perm_cons_erase ha)).free, hmem⟩

/-- Nodes of the pool at different addresses. -/
theorem PoolOk.apart (h : PoolOk p used) (ha : a ∈ used) (hb : b ∈ used) (hne : a ≠ b) :
    NodesApart a b := by
  obtain ⟨i, hi, rfl⟩ := h.mem_carved (List.mem_append_left _ ha)
  obtain ⟨j, hj, rfl⟩ := h.mem_carved (List.mem_append_left _ hb)
  have hij : i ≠ j := fun e => hne (e ▸ rfl)
  rw [NodesApart, h.toNat_nodeAt hi, h.toNat_nodeAt hj, treeNodeSize]
  omega

/-- Every history leaves the pool in a sound state. -/
theorem poolRun_sound (h : PoolRun st used p) : PoolSound st used p := by
  obtain ⟨hok, hmem⟩ := h.poolOk
  obtain ⟨n, hn, hlt, hperm⟩ := hok.carved
  have hlen : used.length + p.freed.length = n := by
    have := hperm.length_eq
    rwa [List.length_append, List.length_map, List.length_range] at this
  have hnodup : used.Nodup := hok.nodup.of_append_left
  refine ⟨fun a ha => ?_, ?_, by omega, by rw [hn, hlen], fun hroom => ?_⟩
  · obtain ⟨i, hi, rfl⟩ := hok.mem_carved (List.mem_append_left _ ha)
    refine ⟨(hok.node_ok hi).1, ?_, ?_⟩
    · rw [hok.toNat_nodeAt hi, hmem]
      exact Nat.le_add_right _ _
    · rw [hok.toNat_nodeAt hi, hmem, staticMemSize, treeNodeSize]
      omega
  · exact hnodup.imp_of_mem fun ha hb hne => hok.apart ha hb hne
  · obtain ⟨a, p', halloc, -⟩ | herr := hok.alloc
    · exact ⟨a, p', halloc⟩
    · rw [hok.alloc_eq_error_iff] at herr
      obtain hfreed | hfew := hroom
      · have := List.length_pos_iff.mpr hfreed
        omega
      · omega

/-- Two nodes are taken and the first is given back. -/
theorem poolRun_sound_free : PoolSound bootStatics [0x100114] ⟨0x100100, 40, [0x100100]⟩ := by
  have hstart : PoolRun bootStatics [] ⟨0x100100, 0, []⟩ := .start
  have hfirst : PoolRun bootStatics [0x100100] ⟨0x100100, 20, []⟩ := .alloc hstart rfl
  have hsecond : PoolRun bootStatics [0x100114, 0x100100] ⟨0x100100, 40, []⟩ := .alloc hfirst rfl
  exact poolRun_sound (.free (a := 0x100100) hsecond (by decide))

end Jkos.Kheap
