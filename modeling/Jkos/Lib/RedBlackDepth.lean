import Jkos.Lib.RedBlack
import Mathlib.Algebra.Order.Ring.Nat
import Mathlib.Data.Nat.Log

/-!
# The depth of red-black trees

A path of a balanced tree has at most twice as many nodes as its black height, and a
balanced tree has exponentially many nodes in its black height. So a red-black tree is
never deeper than twice the logarithm of its size.
-/

namespace RedBlack

universe u v

variable {Loc : Type u} {Key : Type v}

namespace RbTree

/-- The number of nodes on a longest path. -/
def depth : RbTree Loc Key → Nat
  | nil => 0
  | node _ _ _ l r => max l.depth r.depth + 1

theorem depth_le_count (t : RbTree Loc Key) : t.depth ≤ t.count := by
  induction t with
  | nil => exact Nat.le_refl 0
  | node a b k l r ihl ihr =>
      rw [depth, count_node]
      omega

/-- Only a red root lets a path be longer than twice the black height. -/
theorem Balanced.depth_le {t : RbTree Loc Key} {n : Nat} (h : t.Balanced n) :
    t.depth ≤ 2 * n + if t.isBlack then 0 else 1 := by
  induction t generalizing n with
  | nil => exact Nat.zero_le _
  | node a b k l r ihl ihr =>
      cases b with
      | true =>
          obtain ⟨m, rfl, hl, hr⟩ := h
          have hdl := ihl hl
          have hdr := ihr hr
          rw [depth, isBlack, if_pos rfl]
          split at hdl <;> split at hdr <;> omega
      | false =>
          obtain ⟨⟨hbl, hbr⟩, hl, hr⟩ := h
          have hdl := ihl hl
          have hdr := ihr hr
          rw [hbl, if_pos rfl] at hdl
          rw [hbr, if_pos rfl] at hdr
          rw [depth, isBlack, if_neg (by decide)]
          omega

theorem Balanced.two_pow_le {t : RbTree Loc Key} {n : Nat} (h : t.Balanced n) :
    2 ^ n ≤ t.count + 1 := by
  induction t generalizing n with
  | nil =>
      obtain rfl : n = 0 := h
      exact Nat.le_refl 1
  | node a b k l r ihl ihr =>
      rw [count_node]
      cases b with
      | true =>
          obtain ⟨m, rfl, hl, hr⟩ := h
          have hcl := ihl hl
          have hcr := ihr hr
          rw [Nat.pow_succ]
          omega
      | false =>
          have hcl := ihl h.2.1
          omega

end RbTree

theorem IsRedBlack.depth_le {t : RbTree Loc Key} (h : IsRedBlack t) :
    t.depth ≤ 2 * Nat.log 2 (t.count + 1) := by
  obtain ⟨hblack, n, hb⟩ := h
  have hdepth := hb.depth_le
  rw [hblack, if_pos rfl] at hdepth
  have hlog : n ≤ Nat.log 2 (t.count + 1) :=
    Nat.le_log_of_pow_le Nat.one_lt_two hb.two_pow_le
  omega

end RedBlack
