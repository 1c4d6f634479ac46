import Mathlib.Data.List.Basic
import Mathlib.Tactic.Common

/-! Steps that change a state and say whether to go on, and their sequence under a left-to-right
`&&`: nothing runs after the first step that says no. -/
namespace ConduitRuntime.ShortCircuit
set_option autoImplicit false

variable {σ α : Type}

def andThen (f g : σ → σ × Bool) (s : σ) : σ × Bool :=
  if (f s).2 then g (f s).1 else ((f s).1, false)

def all : List (σ → σ × Bool) → σ → σ × Bool
  | [], s => (s, true)
  | f :: fs, s => andThen f (all fs) s

theorem andThen_of_true {f g : σ → σ × Bool} {s s' : σ} (h : f s = (s', true)) :
    andThen f g s = g s' := by
  simp [andThen, h]

theorem andThen_of_false {f g : σ → σ × Bool} {s s' : σ} (h : f s = (s', false)) :
    andThen f g s = (s', false) := by
  simp [andThen, h]

theorem all_append (fs gs : List (σ → σ × Bool)) (s : σ) :
    all (fs ++ gs) s = andThen (all fs) (all gs) s := by
  induction fs generalizing s with
  | nil => simp [all, andThen]
  | cons f fs ih =>
    rcases h : f s with ⟨s', _ | _⟩
    · rw [List.cons_append, all, andThen_of_false h, andThen_of_false]
      rw [all, andThen_of_false h]
    · have hall : all (f :: fs) s = all fs s' := andThen_of_true h
      rw [List.cons_append, all, andThen_of_true h, ih]
      simp only [andThen, hall]

/-- Steps that do nothing and go on may be left out. -/
theorem all_filter (step : α → σ → σ × Bool) (keep : α → Bool)
    (h : ∀ a, keep a = false → ∀ s, step a s = (s, true)) (as : List α) (s : σ) :
    all ((as.filter keep).map step) s = all (as.map step) s := by
  induction as generalizing s with
  | nil => rfl
  | cons a as ih =>
    cases hk : keep a with
    | false =>
      rw [List.filter_cons_of_neg (by simp [hk]), ih, List.map_cons, all,
        andThen_of_true (h a hk s)]
    | true =>
      rw [List.filter_cons_of_pos hk, List.map_cons, List.map_cons, all, all]
      simp only [andThen, ih]

/-- What every step that goes on establishes holds after a sequence that went to its end. -/
theorem all_invariant {fs : List (σ → σ × Bool)} {I : σ → Prop}
    (h : ∀ f ∈ fs, ∀ s s', I s → f s = (s', true) → I s') {s s' : σ} (hs : I s)
    (hall : all fs s = (s', true)) : I s' := by
  induction fs generalizing s with
  | nil =>
    cases hall
    exact hs
  | cons f fs ih =>
    rcases hf : f s with ⟨t, _ | _⟩
    · rw [all, andThen_of_false hf] at hall
      cases hall
    · rw [all, andThen_of_true hf] at hall
      exact ih (fun g hg => h g (List.mem_cons_of_mem _ hg)) (h f (by simp) s t hs hf) hall

end ConduitRuntime.ShortCircuit
