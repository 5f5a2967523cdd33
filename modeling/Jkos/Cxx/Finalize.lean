import Jkos.Word
import Mathlib.Data.List.Basic
import Mathlib.Logic.Function.Basic

/-!
# Exit handlers

`__cxa_atexit` and `__cxa_finalize` of `cxxsupport.cpp`. The handlers sit in an array in the
order of registration. `__cxa_finalize(f)` deletes entries from it while it scans it from
above, so the part below the scan is the part that has not moved.
-/

namespace Jkos.Cxx

/-- `Atexit_func_entry_t`. A function is known by its address. -/
structure AtexitFuncEntry where
  func : Word
  arg : Word
  dsoHandle : Word
  deriving DecidableEq

/-- The function and the argument of the call that runs the handler. -/
def AtexitFuncEntry.call (e : AtexitFuncEntry) : Word × Word := (e.func, e.arg)

/-- `NATEXIT_FUNCS_MAX`. -/
def natexitFuncsMax : Nat := 128

/-- The static variables of `cxxsupport.cpp`, and the calls of handlers made so far. The
handlers themselves do not register others. -/
structure CxxState where
  atexitFuncs : Nat → AtexitFuncEntry
  natexitFuncs : Nat
  calls : List (Word × Word)

namespace CxxState

/-- `(*atexit_funcs[i].func)(atexit_funcs[i].arg)`. -/
def call (s : CxxState) (i : Nat) : CxxState :=
  { s with calls := s.calls ++ [(s.atexitFuncs i).call] }

/-- `__cxa_atexit`, or `none` where it panics. -/
def cxaAtexit (s : CxxState) (func arg dso : Word) : Option CxxState :=
  if s.natexitFuncs = natexitFuncsMax then none
  else some { s with
    atexitFuncs := Function.update s.atexitFuncs s.natexitFuncs ⟨func, arg, dso⟩
    natexitFuncs := s.natexitFuncs + 1 }

/-- `for (int j = i; j + 1 < n; j ++) atexit_funcs[j] = atexit_funcs[j + 1];` -/
def shift (funcs : Nat → AtexitFuncEntry) (n j : Nat) : Nat → AtexitFuncEntry :=
  if j + 1 < n then shift (Function.update funcs j (funcs (j + 1))) n (j + 1) else funcs
  termination_by n - j

/-- The loop of `__cxa_finalize(NULL)`, with `i` entries to go. -/
def callFrom (s : CxxState) : Nat → CxxState
  | 0 => s
  | i + 1 => callFrom (s.call i) i

/-- The loop of `__cxa_finalize(f)`, with `i` entries to go. -/
def finalizeFrom (f : Word) (s : CxxState) : Nat → CxxState
  | 0 => s
  | i + 1 =>
      if (s.atexitFuncs i).func = f then
        let s := s.call i
        finalizeFrom f { s with
          atexitFuncs := shift s.atexitFuncs s.natexitFuncs i
          natexitFuncs := s.natexitFuncs - 1 } i
      else finalizeFrom f s i

/-- `__cxa_finalize`. -/
def cxaFinalize (s : CxxState) (f : Word) : CxxState :=
  if f = 0 then { s.callFrom s.natexitFuncs with natexitFuncs := 0 }
  else finalizeFrom f s s.natexitFuncs

/-- The handlers that wait to be called, in the order of registration. -/
def pending (s : CxxState) : List AtexitFuncEntry := (List.range s.natexitFuncs).map s.atexitFuncs

end CxxState

/-! ## What the two functions are for -/

/-- The handlers that wait, and the calls that were made. -/
structure Handlers where
  pending : List AtexitFuncEntry
  calls : List (Word × Word)

/-- `__cxa_finalize(f)` asks for this handler. -/
def Asked (f : Word) (e : AtexitFuncEntry) : Prop := f = 0 ∨ e.func = f

instance (f : Word) : DecidablePred (Asked f) :=
  fun e => inferInstanceAs (Decidable (f = 0 ∨ e.func = f))

/-- A call of one of the two functions. -/
inductive CxxOp where
  | atexit (func arg dso : Word)
  | finalize (f : Word)

namespace Handlers

/-- A handler joins the list at its end, and there is room for a limited number. Finalizing
runs the handlers asked for, the latest first, and keeps the others in their order. -/
def exec (h : Handlers) : CxxOp → Option Handlers
  | .atexit func arg dso =>
      if h.pending.length = natexitFuncsMax then none
      else some { h with pending := h.pending ++ [⟨func, arg, dso⟩] }
  | .finalize f =>
      some {
        pending := h.pending.filter fun e => ¬ Asked f e
        calls := h.calls ++ ((h.pending.filter fun e => Asked f e).reverse.map (·.call)) }

end Handlers

/-- What `CxxState` stands for. -/
def CxxState.handlers (s : CxxState) : Handlers := ⟨s.pending, s.calls⟩

def CxxState.exec (s : CxxState) : CxxOp → Option CxxState
  | .atexit func arg dso => s.cxaAtexit func arg dso
  | .finalize f => some (s.cxaFinalize f)

/-! ## The loops -/

namespace CxxState

variable {s : CxxState} {f : Word} {i n : Nat}

@[simp] theorem length_pending : s.pending.length = s.natexitFuncs := by
  simp [pending]

theorem shift_apply (funcs : Nat → AtexitFuncEntry) (n j k : Nat) :
    shift funcs n j k = if j ≤ k ∧ k + 1 < n then funcs (k + 1) else funcs k := by
  fun_induction shift funcs n j with
  | case1 funcs j hlt ih =>
      rw [ih]
      obtain hk | rfl | hk := Nat.lt_trichotomy k j
      · have hne : k ≠ j := Nat.ne_of_lt hk
        simp [Function.update_of_ne hne, show ¬ (j + 1 ≤ k) by omega, show ¬ (j ≤ k) by omega]
      · simp [hlt]
      · have hne : k ≠ j := Nat.ne_of_gt hk
        have hne' : k + 1 ≠ j := by omega
        simp [Function.update_of_ne hne, Function.update_of_ne hne', show j + 1 ≤ k by omega,
          show j ≤ k by omega]
  | case2 funcs j hlt => simp [show ¬ (j ≤ k ∧ k + 1 < n) by omega]

/-- The loop over `j` takes one entry out of the array. -/
theorem map_shift (funcs : Nat → AtexitFuncEntry) (hi : i < n) :
    (List.range (n - 1)).map (shift funcs n i) = ((List.range n).map funcs).eraseIdx i := by
  apply List.ext_getElem
  · simp [List.length_eraseIdx, hi]
  · intro k hk _
    simp only [List.length_map, List.length_range] at hk
    rw [List.getElem_eraseIdx, List.getElem_map, List.getElem_range, shift_apply]
    by_cases hki : k < i
    · simp [hki, show ¬ (i ≤ k) by omega]
    · simp [hki, show i ≤ k by omega, show k + 1 < n by omega]

theorem callFrom_eq (s : CxxState) (i : Nat) :
    s.callFrom i = { s with calls :=
      s.calls ++ ((List.range i).map s.atexitFuncs).reverse.map (·.call) } := by
  induction i generalizing s with
  | zero => simp [callFrom]
  | succ i ih => simp [callFrom, ih, call, List.range_succ]

theorem finalizeFrom_handlers (f : Word) (s : CxxState) (hi : i ≤ s.natexitFuncs) :
    (finalizeFrom f s i).pending =
        ((s.pending.take i).filter fun e => ¬ e.func = f) ++ s.pending.drop i ∧
      (finalizeFrom f s i).calls =
        s.calls ++ ((s.pending.take i).filter fun e => e.func = f).reverse.map (·.call) := by
  induction i generalizing s with
  | zero => simp [finalizeFrom]
  | succ i ih =>
      have hlt : i < s.pending.length := by rwa [length_pending]
      have hget : s.pending[i] = s.atexitFuncs i := by simp [pending]
      have htake : s.pending.take (i + 1) = s.pending.take i ++ [s.atexitFuncs i] := by
        rw [List.take_succ_eq_append_getElem hlt, hget]
      rw [finalizeFrom]
      split
      · next hmatch =>
          -- the entry leaves the array, and what lies below it is where it was
          let s' : CxxState := { s.call i with
            atexitFuncs := shift s.atexitFuncs s.natexitFuncs i
            natexitFuncs := s.natexitFuncs - 1 }
          have herase : s'.pending = s.pending.take i ++ s.pending.drop (i + 1) := by
            rw [← List.eraseIdx_eq_take_drop_succ]
            exact map_shift s.atexitFuncs hi
          have hlen : (s.pending.take i).length = i := List.length_take_of_le hlt.le
          obtain ⟨hpending, hcalls⟩ := ih s' (Nat.le_sub_one_of_lt hi)
          rw [herase, List.take_left' hlen, List.drop_left' hlen] at hpending
          rw [herase, List.take_left' hlen] at hcalls
          constructor
          · change (finalizeFrom f s' i).pending = _
            rw [hpending, htake, List.filter_append]
            simp [hmatch]
          · change (finalizeFrom f s' i).calls = _
            rw [hcalls, htake, List.filter_append]
            simp [hmatch, s', call]
      · next hmatch =>
          obtain ⟨hpending, hcalls⟩ := ih s (Nat.le_of_succ_le hi)
          have hdrop : s.pending.drop i = s.atexitFuncs i :: s.pending.drop (i + 1) := by
            rw [List.drop_eq_getElem_cons hlt, hget]
          constructor
          · rw [htake, List.filter_append, hpending, hdrop]
            simp [hmatch]
          · rw [htake, List.filter_append, hcalls]
            simp [hmatch]

/-! ## The functions -/

theorem cxaFinalize_handlers (s : CxxState) (f : Word) :
    (s.cxaFinalize f).handlers = ⟨s.pending.filter fun e => ¬ Asked f e,
      s.calls ++ (s.pending.filter fun e => Asked f e).reverse.map (·.call)⟩ := by
  rw [cxaFinalize]
  split
  · next hnull =>
      rw [callFrom_eq]
      simp [handlers, Asked, hnull, pending]
  · next hf =>
      obtain ⟨hpending, hcalls⟩ := finalizeFrom_handlers f s (Nat.le_refl _)
      have hasked : ∀ e, Asked f e ↔ e.func = f := fun e => or_iff_right hf
      rw [handlers, hpending, hcalls, ← length_pending, List.take_length, List.drop_length,
        List.append_nil]
      simp only [hasked]

theorem pending_update (e : AtexitFuncEntry) :
    pending { s with
      atexitFuncs := Function.update s.atexitFuncs s.natexitFuncs e
      natexitFuncs := s.natexitFuncs + 1 } = s.pending ++ [e] := by
  simp only [pending, List.range_succ, List.map_append, List.map_cons, List.map_nil,
    Function.update_self, List.append_cancel_right_eq]
  apply List.map_congr_left
  intro k hk
  exact Function.update_of_ne (Nat.ne_of_lt (List.mem_range.mp hk)) _ _

/-- One call does to the array what it should do to the list of handlers. -/
theorem exec_handlers (s : CxxState) (op : CxxOp) :
    (s.exec op).map handlers = s.handlers.exec op := by
  cases op with
  | atexit func arg dso =>
      rw [exec, cxaAtexit, Handlers.exec]
      simp only [handlers, length_pending]
      split
      · rfl
      · simp [handlers, pending_update]
  | finalize f =>
      rw [exec, Option.map_some, cxaFinalize_handlers]
      rfl

end CxxState

/-! ## Histories -/

/-- The calls of the entries that `ops` registers. -/
def registered (ops : List CxxOp) : List (Word × Word) :=
  ops.filterMap fun
    | .atexit func arg _ => some (func, arg)
    | .finalize _ => none

/-- The table is empty when the kernel starts. -/
def CxxState.start (funcs : Nat → AtexitFuncEntry) : CxxState := ⟨funcs, 0, []⟩

/-- Every handler that was ever registered was called once or waits. -/
theorem Handlers.foldlM_conserved (ops : List CxxOp) (h h' : Handlers)
    (hrun : ops.foldlM Handlers.exec h = some h') :
    (h'.calls ++ h'.pending.map (·.call)).Perm
      (h.calls ++ h.pending.map (·.call) ++ registered ops) := by
  induction ops generalizing h with
  | nil =>
      cases hrun
      simp [registered]
  | cons op ops ih =>
      obtain ⟨h₁, hop, hrest⟩ := Option.bind_eq_some_iff.mp hrun
      have htail := ih h₁ hrest
      cases op with
      | atexit func arg dso =>
          simp only [exec, Option.ite_none_left_eq_some, Option.some.injEq] at hop
          obtain ⟨-, rfl⟩ := hop
          simpa [registered, AtexitFuncEntry.call] using htail
      | finalize f =>
          simp only [exec, Option.some.injEq] at hop
          subst hop
          apply htail.trans
          simp only [registered, List.filterMap_cons]
          apply List.Perm.append_right
          rw [List.append_assoc]
          apply List.Perm.append_left
          rw [← List.map_append]
          apply List.Perm.map
          have hsplit := List.filter_append_perm (fun e => decide (Asked f e)) h.pending
          apply ((List.reverse_perm _).append_right _).trans
          simpa using hsplit

/-- What holds of the array after the calls `ops`. -/
structure RunsExactly (funcs : Nat → AtexitFuncEntry) (ops : List CxxOp) : Prop where
  /-- The array does what the list of handlers should do, call by call, and the kernel
  panics exactly where a handler too many is registered. -/
  refines : (ops.foldlM CxxState.exec (.start funcs)).map CxxState.handlers =
    ops.foldlM Handlers.exec ⟨[], []⟩
  /-- The array is never used beyond its end. -/
  bounded : ∀ s, ops.foldlM CxxState.exec (.start funcs) = some s →
    s.natexitFuncs ≤ natexitFuncsMax
  conserved : ∀ s, ops.foldlM CxxState.exec (.start funcs) = some s →
    (s.calls ++ s.pending.map (·.call)).Perm (registered ops)

theorem Handlers.length_foldlM (ops : List CxxOp) (h h' : Handlers)
    (hle : h.pending.length ≤ natexitFuncsMax) (hrun : ops.foldlM Handlers.exec h = some h') :
    h'.pending.length ≤ natexitFuncsMax := by
  induction ops generalizing h with
  | nil =>
      cases hrun
      exact hle
  | cons op ops ih =>
      obtain ⟨h₁, hop, hrest⟩ := Option.bind_eq_some_iff.mp hrun
      apply ih h₁ _ hrest
      cases op with
      | atexit func arg dso =>
          simp only [exec, Option.ite_none_left_eq_some, Option.some.injEq] at hop
          obtain ⟨hne, rfl⟩ := hop
          simp only [List.length_append, List.length_cons, List.length_nil]
          omega
      | finalize f =>
          simp only [exec, Option.some.injEq] at hop
          subst hop
          exact (List.length_filter_le _ _).trans hle

theorem foldlM_handlers (ops : List CxxOp) (s : CxxState) :
    (ops.foldlM CxxState.exec s).map CxxState.handlers = ops.foldlM Handlers.exec s.handlers := by
  induction ops generalizing s with
  | nil => rfl
  | cons op ops ih =>
      rw [List.foldlM_cons, List.foldlM_cons, ← s.exec_handlers op]
      cases s.exec op with
      | none => rfl
      | some s₁ => exact ih s₁

/-- For every history of registrations and finalizations. -/
theorem runs_exactly (funcs : Nat → AtexitFuncEntry) (ops : List CxxOp) :
    RunsExactly funcs ops := by
  have hrefines := foldlM_handlers ops (.start funcs)
  have hstart : (CxxState.start funcs).handlers = ⟨[], []⟩ := rfl
  rw [hstart] at hrefines
  refine ⟨hrefines, fun s hs => ?_, fun s hs => ?_⟩
  · rw [hs] at hrefines
    have hle := Handlers.length_foldlM ops ⟨[], []⟩ _ (Nat.zero_le _) hrefines.symm
    rwa [CxxState.handlers, CxxState.length_pending] at hle
  · rw [hs] at hrefines
    exact Handlers.foldlM_conserved ops ⟨[], []⟩ _ hrefines.symm

end Jkos.Cxx
