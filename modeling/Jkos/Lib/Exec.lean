import Mathlib.Tactic.Common
import Mathlib.Order.Defs.Unbundled

/-!
# Programs over a state that may fail

`Exec σ ε α` is a program that transforms a state and returns a value or fails with
an error; the state reached survives a failure. Two kinds of statements about such
programs compose along their structure:

* `Keeps I x`: every run of `x` keeps the invariant `I`, whether it succeeds or fails;
* `Triple P x Q E`: from `P`, a success ends in `Q` and a failure in `E`.
-/

universe u v w

/-- A program over the state `σ` with errors `ε`. -/
def Exec (σ : Type u) (ε : Type v) (α : Type w) := σ → Except ε α × σ

namespace Exec

variable {σ : Type u} {ε : Type v} {α β : Type w}

/-- Run the second program on the result of the first, unless that failed. -/
def andThen (x : Exec σ ε α) (f : α → Exec σ ε β) : Exec σ ε β := fun s =>
  match x s with
  | (.ok a, s') => f a s'
  | (.error e, s') => (.error e, s')

instance : Monad (Exec σ ε) where
  pure a := fun s => (.ok a, s)
  bind := andThen

/-- Read a component of the state. -/
def read (f : σ → α) : Exec σ ε α := fun s => (.ok (f s), s)

/-- Change the state. -/
def modify (f : σ → σ) : Exec σ ε PUnit := fun s => (.ok ⟨⟩, f s)

def throw (e : ε) : Exec σ ε α := fun s => (.error e, s)

@[simp] theorem pure_apply (a : α) (s : σ) : (pure a : Exec σ ε α) s = (.ok a, s) := rfl

@[simp] theorem read_apply (f : σ → α) (s : σ) : (read f : Exec σ ε α) s = (.ok (f s), s) := rfl

@[simp] theorem modify_apply (f : σ → σ) (s : σ) :
    (modify f : Exec σ ε PUnit) s = (.ok ⟨⟩, f s) := rfl

@[simp] theorem throw_apply (e : ε) (s : σ) : (throw e : Exec σ ε α) s = (.error e, s) := rfl

theorem bind_apply (x : Exec σ ε α) (f : α → Exec σ ε β) (s : σ) :
    (x >>= f) s = match x s with
      | (.ok a, s') => f a s'
      | (.error e, s') => (.error e, s') := rfl

theorem bind_ok {x : Exec σ ε α} {f : α → Exec σ ε β} {s s' : σ} {a : α}
    (h : x s = (.ok a, s')) : (x >>= f) s = f a s' := by
  rw [bind_apply, h]

theorem bind_error {x : Exec σ ε α} {f : α → Exec σ ε β} {s s' : σ} {e : ε}
    (h : x s = (.error e, s')) : (x >>= f) s = (.error e, s') := by
  rw [bind_apply, h]

theorem bind_pure_self (x : Exec σ ε α) : (x >>= pure) = x := by
  funext s
  cases h : x s with
  | mk r t =>
      cases r with
      | ok a => rw [bind_ok h, pure_apply]
      | error e => rw [bind_error h]

theorem bind_bind {γ : Type w} (x : Exec σ ε α) (f : α → Exec σ ε β) (f' : β → Exec σ ε γ) :
    x >>= f >>= f' = x >>= fun a => f a >>= f' := by
  funext s
  cases h : x s with
  | mk r t =>
      cases r with
      | ok a => rw [bind_ok h, bind_apply, bind_ok h, ← bind_apply]
      | error e => rw [bind_error h, bind_error (bind_error h)]

instance : LawfulMonad (Exec σ ε) :=
  LawfulMonad.mk' _ bind_pure_self (fun _ _ => rfl) bind_bind

/-- A successful composition ran both parts. -/
theorem bind_eq_ok {x : Exec σ ε α} {f : α → Exec σ ε β} {s s' : σ} {b : β}
    (h : (x >>= f) s = (.ok b, s')) :
    ∃ a t, x s = (.ok a, t) ∧ f a t = (.ok b, s') := by
  rw [bind_apply] at h
  split at h
  · next a t hx => exact ⟨a, t, hx, h⟩
  · cases h

/-- The value of a run tells that it succeeded. -/
theorem eq_ok_of_toOption {x : Exec σ ε α} {s : σ} {a : α} (h : (x s).1.toOption = some a) :
    x s = (.ok a, (x s).2) := by
  cases hx : x s with
  | mk r t =>
      rw [hx] at h
      cases r with
      | ok b =>
          obtain rfl : b = a := Option.some.inj h
          rfl
      | error e => cases h

/-! ## Invariants -/

/-- The invariant `I` holds at the end of every run that starts in it. -/
def Keeps (I : σ → Prop) (x : Exec σ ε α) : Prop := ∀ s, I s → I (x s).2

section Keeps

variable {I : σ → Prop}

theorem keeps_pure (a : α) : Keeps I (pure a : Exec σ ε α) := fun _ h => h

theorem keeps_read (f : σ → α) : Keeps I (read f : Exec σ ε α) := fun _ h => h

theorem keeps_throw (e : ε) : Keeps I (throw e : Exec σ ε α) := fun _ h => h

theorem keeps_modify {f : σ → σ} (h : ∀ s, I s → I (f s)) : Keeps I (modify f : Exec σ ε _) := h

theorem keeps_bind {x : Exec σ ε α} {f : α → Exec σ ε β} (hx : Keeps I x)
    (hf : ∀ a, Keeps I (f a)) : Keeps I (x >>= f) := by
  intro s hs
  have hs' := hx s hs
  rw [bind_apply]
  split
  · next a t h =>
      rw [h] at hs'
      exact hf a t hs'
  · next e t h =>
      rw [h] at hs'
      exact hs'

theorem keeps_ite {c : Prop} [Decidable c] {x y : Exec σ ε α} (hx : c → Keeps I x)
    (hy : ¬ c → Keeps I y) : Keeps I (if c then x else y) := by
  split
  · next h => exact hx h
  · next h => exact hy h

end Keeps

/-! ## Allowed changes -/

/-! ## Pre- and postconditions -/

/-- From the state `s`, a success ends in `Q` and a failure in `E`. -/
def Ends (x : Exec σ ε α) (s : σ) (Q : α → σ → Prop) (E : ε → σ → Prop) : Prop :=
  match x s with
  | (.ok a, s') => Q a s'
  | (.error e, s') => E e s'

namespace Ends

variable {x : Exec σ ε α} {s s' : σ} {Q : α → σ → Prop} {R : β → σ → Prop} {E : ε → σ → Prop}

theorem of_ok {a : α} (hx : x s = (.ok a, s')) (h : Q a s') : Ends x s Q E := by
  rw [Ends, hx]
  exact h

theorem of_error {e : ε} (hx : x s = (.error e, s')) (h : E e s') : Ends x s Q E := by
  rw [Ends, hx]
  exact h

theorem ok (h : Ends x s Q E) {a : α} (hx : x s = (.ok a, s')) : Q a s' := by
  rw [Ends, hx] at h
  exact h

theorem error (h : Ends x s Q E) {e : ε} (hx : x s = (.error e, s')) : E e s' := by
  rw [Ends, hx] at h
  exact h

theorem of_true : Ends x s (fun _ _ => True) (fun _ _ => True) := by
  rw [Ends]
  split <;> exact trivial

/-- A program that cannot fail returns. -/
theorem returns (h : Ends x s Q E) (hE : ∀ e t, ¬ E e t) : ∃ a t, x s = (.ok a, t) ∧ Q a t := by
  cases hx : x s with
  | mk r t =>
      cases r with
      | ok a => exact ⟨a, t, rfl, h.ok hx⟩
      | error e => exact absurd (h.error hx) (hE e t)

/-- What is known about failures, beside the run itself. -/
theorem runs (h : Ends x s Q E) : Ends x s (fun a t => x s = (.ok a, t)) E := by
  cases hx : x s with
  | mk r t =>
      cases r with
      | ok a => exact of_ok hx rfl
      | error e => exact of_error hx (h.error hx)

theorem bind {f : α → Exec σ ε β} (hx : Ends x s Q E) (hf : ∀ a s', Q a s' → Ends (f a) s' R E) :
    Ends (x >>= f) s R E := by
  cases h : x s with
  | mk r t =>
      cases r with
      | ok a =>
          rw [Ends, bind_ok h]
          exact hf a t (hx.ok h)
      | error e => exact of_error (bind_error h) (hx.error h)

theorem bind_of_ok {f : α → Exec σ ε β} {a : α} (hx : x s = (.ok a, s')) :
    Ends (x >>= f) s R E ↔ Ends (f a) s' R E := by
  rw [Ends, bind_ok hx]
  rfl

theorem bind_read {γ : Type w} {g : σ → γ} {f : γ → Exec σ ε β} :
    Ends (read g >>= f) s R E ↔ Ends (f (g s)) s R E := Iff.rfl

/-- Programs that continue alike from every end. -/
theorem bind_congr {f f' : α → Exec σ ε β} (hx : Ends x s Q E)
    (hf : ∀ a s', Q a s' → f a s' = f' a s') : (x >>= f) s = (x >>= f') s := by
  cases h : x s with
  | mk r t =>
      cases r with
      | ok a => rw [bind_ok h, bind_ok h, hf a t (hx.ok h)]
      | error e => rw [bind_error h, bind_error h]

theorem mono {Q' : α → σ → Prop} {E' : ε → σ → Prop} (h : Ends x s Q E)
    (hQ : ∀ a s', Q a s' → Q' a s') (hE : ∀ e s', E e s' → E' e s') : Ends x s Q' E' := by
  cases hx : x s with
  | mk r t =>
      cases r with
      | ok a => exact of_ok hx (hQ a t (h.ok hx))
      | error e => exact of_error hx (hE e t (h.error hx))

theorem and {Q' : α → σ → Prop} (h : Ends x s Q E) (h' : Ends x s Q' E) :
    Ends x s (fun a t => Q a t ∧ Q' a t) E := by
  cases hx : x s with
  | mk r t =>
      cases r with
      | ok a => exact of_ok hx ⟨h.ok hx, h'.ok hx⟩
      | error e => exact of_error hx (h.error hx)

end Ends

/-- From a state in `P`, a success ends in `Q` and a failure in `E`. -/
def Triple (P : σ → Prop) (x : Exec σ ε α) (Q : α → σ → Prop) (E : ε → σ → Prop) : Prop :=
  ∀ s, P s → Ends x s Q E

section Triple

variable {P P' : σ → Prop} {Q : α → σ → Prop} {R : β → σ → Prop} {E : ε → σ → Prop}

theorem triple_pure (a : α) : Triple (Q a) (pure a) Q E := fun _ h => h

theorem triple_bind {x : Exec σ ε α} {f : α → Exec σ ε β} (hx : Triple P x Q E)
    (hf : ∀ a, Triple (Q a) (f a) R E) : Triple P (x >>= f) R E :=
  fun s hs => (hx s hs).bind hf

theorem triple_ite {c : Prop} [Decidable c] {x y : Exec σ ε α} (hx : c → Triple P x Q E)
    (hy : ¬ c → Triple P y Q E) : Triple P (if c then x else y) Q E := by
  split
  · next h => exact hx h
  · next h => exact hy h

theorem Triple.weaken {x : Exec σ ε α} {Q' : α → σ → Prop} {E' : ε → σ → Prop}
    (h : Triple P x Q E) (hP : ∀ s, P' s → P s) (hQ : ∀ a s, Q a s → Q' a s)
    (hE : ∀ e s, E e s → E' e s) : Triple P' x Q' E' :=
  fun s hs => (h s (hP s hs)).mono hQ hE

end Triple

end Exec
