import Jkos.Lib.Exec

/-!
# Programs that do not tell states apart

A relation on states says which differences a program must not notice. An oblivious program
yields the same result in related states, and related states again. Such programs compose.
-/

universe u v w

namespace Exec

variable {σ : Type u} {ε : Type v} {α β : Type w} {R : σ → σ → Prop}

/-- Runs from related states have the same result and end in related states. -/
def Oblivious (R : σ → σ → Prop) (x : Exec σ ε α) : Prop :=
  ∀ s t, R s t → (x t).1 = (x s).1 ∧ R (x s).2 (x t).2

/-- A run that returns, seen from a related state. -/
theorem Oblivious.ok {x : Exec σ ε α} (hx : Oblivious R x) {s s' t : σ} {a : α} (h : R s t)
    (hrun : x s = (.ok a, s')) : ∃ t', x t = (.ok a, t') ∧ R s' t' := by
  obtain ⟨hfst, hsnd⟩ := hx s t h
  rw [hrun] at hfst hsnd
  exact ⟨(x t).2, Prod.ext hfst rfl, hsnd⟩

theorem oblivious_pure (a : α) : Oblivious R (pure a : Exec σ ε α) := fun _ _ h => ⟨rfl, h⟩

theorem oblivious_throw (e : ε) : Oblivious R (throw e : Exec σ ε α) := fun _ _ h => ⟨rfl, h⟩

theorem oblivious_read {f : σ → α} (hf : ∀ s t, R s t → f t = f s) :
    Oblivious R (read f : Exec σ ε α) :=
  fun s t h => ⟨congrArg Except.ok (hf s t h), h⟩

theorem oblivious_modify {f : σ → σ} (hf : ∀ s t, R s t → R (f s) (f t)) :
    Oblivious R (modify f : Exec σ ε PUnit) :=
  fun s t h => ⟨rfl, hf s t h⟩

theorem oblivious_bind {x : Exec σ ε α} {f : α → Exec σ ε β} (hx : Oblivious R x)
    (hf : ∀ a, Oblivious R (f a)) : Oblivious R (x >>= f) := by
  intro s t h
  obtain ⟨hfst, hsnd⟩ := hx s t h
  cases hs : x s with
  | mk r s' =>
      cases ht : x t with
      | mk r' t' =>
          rw [hs, ht] at hfst hsnd
          obtain rfl : r' = r := hfst
          cases r' with
          | ok a =>
              rw [bind_ok hs, bind_ok ht]
              exact hf a s' t' hsnd
          | error e =>
              rw [bind_error hs, bind_error ht]
              exact ⟨rfl, hsnd⟩

theorem oblivious_ite {c : Prop} [Decidable c] {x y : Exec σ ε α} (hx : c → Oblivious R x)
    (hy : ¬ c → Oblivious R y) : Oblivious R (if c then x else y) := by
  split
  · next h => exact hx h
  · next h => exact hy h

end Exec
