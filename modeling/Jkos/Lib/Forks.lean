import Mathlib.Data.Set.Insert
import Mathlib.Tactic.Common

/-!
# Private memories that are forked

Several spaces take turns in using one memory. What happens is recorded as a history of
events, and the history alone says what each space has to see: its own last write, or what
the space it was forked from saw at the time of the fork. A system implements private
memories if what it holds for each space keeps agreeing with the history; the lemmas here
say what each event has to do for that.
-/

universe u v w

namespace Forks

/-- What happens to spaces `σ` with addresses `α` and values `υ`. -/
inductive Event (σ : Type u) (α : Type v) (υ : Type w)
  /-- The current space gets memory with these contents. -/
  | provide (contents : α → Option υ)
  | fork (src dest : σ)
  | switch (d : σ)
  | read (a : α) (v : υ)
  | write (a : α) (v : υ)

variable {σ : Type u} {α : Type v} {υ : Type w}

/-- The current space after a history that began with the space `d₀`; histories have the
latest event first. -/
def current (d₀ : σ) : List (Event σ α υ) → σ
  | [] => d₀
  | .switch d :: _ => d
  | _ :: es => current d₀ es

variable [DecidableEq σ] [DecidableEq α]

/-- What the space `d` has to see at the address `a`. -/
def value (d₀ : σ) : List (Event σ α υ) → σ → α → Option υ
  | [], _, _ => none
  | .provide contents :: es, d, a =>
    if d = current d₀ es then (contents a).or (value d₀ es d a) else value d₀ es d a
  | .fork src dest :: es, d, a => if d = dest then value d₀ es src a else value d₀ es d a
  | .switch _ :: es, d, a => value d₀ es d a
  | .read _ _ :: es, d, a => value d₀ es d a
  | .write b v :: es, d, a =>
    if d = current d₀ es ∧ a = b then some v else value d₀ es d a

/-- Every read of the history returned what its space had to see. -/
def Faithful (d₀ : σ) : List (Event σ α υ) → Prop
  | [] => True
  | .read a v :: es => value d₀ es (current d₀ es) a = some v ∧ Faithful d₀ es
  | _ :: es => Faithful d₀ es

/-- In the state `cur`, `m` with the live spaces `live`, every live space sees at the
addresses in `A` what the history says, and so did every read. -/
structure Agrees (d₀ : σ) (A : Set α) (es : List (Event σ α υ)) (cur : σ) (live : Set σ)
    (m : σ → α → Option υ) : Prop where
  cur_eq : cur = current d₀ es
  cur_mem : cur ∈ live
  faithful : Faithful d₀ es
  shows : ∀ d ∈ live, ∀ a ∈ A, m d a = value d₀ es d a

namespace Agrees

variable {d₀ cur d dest src : σ} {A : Set α} {es : List (Event σ α υ)} {live : Set σ}
  {m m' : σ → α → Option υ}

/-- Memory for the current space changes what that space sees there. -/
theorem provide (h : Agrees d₀ A es cur live m) {contents : α → Option υ}
    (hcur : ∀ a ∈ A, m' cur a = (contents a).or (m cur a))
    (hother : ∀ d ∈ live, d ≠ cur → ∀ a ∈ A, m' d a = m d a) :
    Agrees d₀ A (.provide contents :: es) cur live m' := by
  refine ⟨h.cur_eq, h.cur_mem, h.faithful, fun d hd a ha => ?_⟩
  by_cases hdc : d = cur
  · rw [value, if_pos (hdc.trans h.cur_eq), ← h.shows d hd a ha, hdc]
    exact hcur a ha
  · rw [value, if_neg (h.cur_eq ▸ hdc), ← h.shows d hd a ha]
    exact hother d hd hdc a ha

/-- A new space sees what its parent sees. -/
theorem fork (h : Agrees d₀ A es cur live m) (hsrc : src ∈ live) (hdest : dest ∉ live)
    (hnew : ∀ a ∈ A, m' dest a = m src a) (hold : ∀ d ∈ live, ∀ a ∈ A, m' d a = m d a) :
    Agrees d₀ A (.fork src dest :: es) cur (insert dest live) m' := by
  refine ⟨h.cur_eq, Set.mem_insert_of_mem _ h.cur_mem, h.faithful, fun d hd a ha => ?_⟩
  obtain rfl | hd := Set.mem_insert_iff.mp hd
  · rw [value, if_pos rfl, ← h.shows src hsrc a ha]
    exact hnew a ha
  · have hne : d ≠ dest := fun e => hdest (e ▸ hd)
    rw [value, if_neg hne, ← h.shows d hd a ha]
    exact hold d hd a ha

theorem switch (h : Agrees d₀ A es cur live m) (hd : d ∈ live) :
    Agrees d₀ A (.switch d :: es) d live m :=
  ⟨rfl, hd, h.faithful, fun e he a ha => h.shows e he a ha⟩

/-- What happens behind the scenes leaves everything as it is. -/
theorem keep (h : Agrees d₀ A es cur live m) (hkeep : ∀ d ∈ live, ∀ b ∈ A, m' d b = m d b) :
    Agrees d₀ A es cur live m' :=
  ⟨h.cur_eq, h.cur_mem, h.faithful,
    fun d hd b hb => (hkeep d hd b hb).trans (h.shows d hd b hb)⟩

/-- A read returns what its space sees. -/
theorem read (h : Agrees d₀ A es cur live m) {a : α} {v : υ} (ha : a ∈ A)
    (hv : m cur a = some v) : Agrees d₀ A (.read a v :: es) cur live m := by
  refine ⟨h.cur_eq, h.cur_mem, ⟨?_, h.faithful⟩, h.shows⟩
  rw [← h.cur_eq, ← h.shows cur h.cur_mem a ha]
  exact hv

/-- A write shows at its address in the current space and nowhere else. -/
theorem write (h : Agrees d₀ A es cur live m) {a : α} {v : υ} (hself : m' cur a = some v)
    (hother : ∀ d ∈ live, ∀ b ∈ A, (d = cur → b ≠ a) → m' d b = m d b) :
    Agrees d₀ A (.write a v :: es) cur live m' := by
  refine ⟨h.cur_eq, h.cur_mem, h.faithful, fun d hd b hb => ?_⟩
  by_cases hin : d = cur ∧ b = a
  · rw [value, if_pos ⟨hin.1.trans h.cur_eq, hin.2⟩, hin.1, hin.2]
    exact hself
  · have hout : ¬ (d = current d₀ es ∧ b = a) := by
      rw [← h.cur_eq]
      exact hin
    rw [value, if_neg hout, ← h.shows d hd b hb]
    exact hother d hd b hb fun hdc hba => hin ⟨hdc, hba⟩

end Agrees

end Forks
