import Mathlib.Data.List.Basic
import Mathlib.Tactic.Common

/-! Executions of a partial step function whose every step emits one event. The environment's
promise `ok` restricts which action may be taken in which state. Safety results about whole
executions come from `Exec.invariant`; `run` replays a concrete schedule. -/
namespace ConduitRuntime.Execution
set_option autoImplicit false

variable {σ α ε : Type}

/-- `Exec step ok s₀ es s`: some schedule whose actions all meet `ok` leads from `s₀` to `s` and
emits the events `es`, oldest first. -/
inductive Exec (step : σ → α → Option (σ × ε)) (ok : σ → α → Prop) (s₀ : σ) : List ε → σ → Prop
  | nil : Exec step ok s₀ [] s₀
  | snoc {es : List ε} {s t : σ} {a : α} {e : ε} (h : Exec step ok s₀ es s) (hok : ok s a)
      (hs : step s a = some (t, e)) : Exec step ok s₀ (es ++ [e]) t

/-- What holds at the start and is kept by every step holds after every execution. -/
theorem Exec.invariant {step : σ → α → Option (σ × ε)} {ok : σ → α → Prop} {s₀ : σ}
    (I : List ε → σ → Prop) (hinit : I [] s₀)
    (hstep : ∀ es s a t e, I es s → ok s a → step s a = some (t, e) → I (es ++ [e]) t)
    {es : List ε} {s : σ} (h : Exec step ok s₀ es s) : I es s := by
  induction h with
  | nil => exact hinit
  | snoc _ hok hs ih => exact hstep _ _ _ _ _ ih hok hs

theorem Exec.trans {step : σ → α → Option (σ × ε)} {ok : σ → α → Prop} {s₀ s t : σ}
    {es fs : List ε} (h : Exec step ok s₀ es s) (k : Exec step ok s fs t) :
    Exec step ok s₀ (es ++ fs) t := by
  induction k with
  | nil => simpa using h
  | snoc _ hok hs ih =>
    rw [← List.append_assoc]
    exact ih.snoc hok hs

/-- A weaker promise admits every execution of a stronger one. -/
theorem Exec.mono {step : σ → α → Option (σ × ε)} {ok ok' : σ → α → Prop} {s₀ s : σ} {es : List ε}
    (hok : ∀ s a, ok s a → ok' s a) (h : Exec step ok s₀ es s) : Exec step ok' s₀ es s := by
  induction h with
  | nil => exact .nil
  | snoc _ ha hs ih => exact ih.snoc (hok _ _ ha) hs

/-- What one more event adds to a projection of the trace. -/
theorem filterMap_snoc {β : Type} (f : ε → Option β) (es : List ε) (e : ε) :
    (es ++ [e]).filterMap f = es.filterMap f ++ (f e).toList := by
  rw [List.filterMap_append]
  cases h : f e <;> simp [h]

/-- Replay a schedule; `none` when an action is disabled or breaks the promise. -/
def run (step : σ → α → Option (σ × ε)) (ok : σ → α → Prop) [∀ s a, Decidable (ok s a)] :
    σ → List α → Option (List ε × σ)
  | s, [] => some ([], s)
  | s, a :: as =>
    if ok s a then
      match step s a with
      | none => none
      | some (t, e) => (run step ok t as).map fun r => (e :: r.1, r.2)
    else none

theorem exec_of_run {step : σ → α → Option (σ × ε)} {ok : σ → α → Prop}
    [∀ s a, Decidable (ok s a)] {s : σ} {as : List α} {es : List ε} {t : σ}
    (h : run step ok s as = some (es, t)) : Exec step ok s es t := by
  induction as generalizing s es with
  | nil =>
    obtain ⟨rfl, rfl⟩ : [] = es ∧ s = t := by simpa [run] using h
    exact .nil
  | cons a as ih =>
    unfold run at h
    split_ifs at h with hok
    split at h
    · cases h
    · rename_i t' e hs
      obtain ⟨⟨fs, u⟩, hr, hes⟩ := Option.map_eq_some_iff.mp h
      obtain ⟨rfl, rfl⟩ : e :: fs = es ∧ u = t := by simpa using hes
      have h1 : Exec step ok s ([] ++ [e]) t' := Exec.nil.snoc hok hs
      exact h1.trans (ih hr)

end ConduitRuntime.Execution
