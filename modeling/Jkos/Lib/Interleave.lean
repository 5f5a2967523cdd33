import Mathlib.Logic.Function.Iterate

/-!
# Steps with disturbances between them

A system takes steps, and at any moment something else may happen to it. Where a relation to
the undisturbed system survives each disturbance, it survives every interleaving of them with
the steps.
-/

namespace Interleave

/-- A step of the system, or a disturbance. -/
inductive Act (ι : Type*) where
  | step
  | disturb (i : ι)

variable {α ι : Type*}

/-- What one of them does. -/
def act (step : α → α) (disturb : ι → α → α) (a : α) : Act ι → α
  | .step => step a
  | .disturb i => disturb i a

/-- An interleaving. -/
def run (step : α → α) (disturb : ι → α → α) (acts : List (Act ι)) (a : α) : α :=
  acts.foldl (act step disturb) a

/-- The number of steps of an interleaving. -/
def steps : List (Act ι) → Nat
  | [] => 0
  | .step :: acts => steps acts + 1
  | .disturb _ :: acts => steps acts

variable {step : α → α} {disturb : ι → α → α} {r : α → α → Prop} {Good : ι → Prop} {a b : α}

/-- Disturbances that keep a relation to the undisturbed system cannot be noticed. -/
theorem run_related (hstep : ∀ a b, r a b → r (step a) (step b))
    (hdisturb : ∀ i, Good i → ∀ n a, r a (step^[n] b) → r (disturb i a) (step^[n] b))
    (acts : List (Act ι)) (good : ∀ i, .disturb i ∈ acts → Good i) (h : r a b) :
    r (run step disturb acts a) (step^[steps acts] b) := by
  have general : ∀ n a, r a (step^[n] b) →
      r (run step disturb acts a) (step^[steps acts + n] b) := by
    induction acts with
    | nil =>
        intro n a h
        rw [steps, Nat.zero_add]
        exact h
    | cons x acts ih =>
        have tail := ih fun i hi => good i (List.mem_cons_of_mem _ hi)
        intro n a h
        cases x with
        | step =>
            have hnext : r (step a) (step^[n + 1] b) := by
              rw [Function.iterate_succ_apply']
              exact hstep _ _ h
            rw [steps, Nat.add_assoc, Nat.add_comm 1]
            exact tail (n + 1) (step a) hnext
        | disturb i =>
            apply tail n (disturb i a)
            exact hdisturb i (good i List.mem_cons_self) n a h
  exact general 0 a h

end Interleave
