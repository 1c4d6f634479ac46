import Mathlib.Data.List.Nodup
import Mathlib.Logic.Function.Basic

/-! A family of values under keys, changed one value at a time: what happens to the value under one
key is the fold of the changes that carry this key, in their order, and nothing else. -/
namespace ConduitRuntime.KeyedFold
set_option autoImplicit false

variable {κ β ι : Type} [DecidableEq κ]

/-- A change without a key changes nothing. -/
def applyAt (key : ι → Option κ) (f : ι → β → β) (m : κ → β) (x : ι) : κ → β :=
  match key x with
  | none => m
  | some k => Function.update m k (f x (m k))

theorem foldl_applyAt (key : ι → Option κ) (f : ι → β → β) (l : List ι) (m : κ → β) (k : κ) :
    l.foldl (applyAt key f) m k =
      (l.filter fun x => key x = some k).foldl (fun b x => f x b) (m k) := by
  induction l generalizing m with
  | nil => rfl
  | cons x l ih =>
    rw [List.foldl_cons, ih]
    by_cases hx : key x = some k
    · simp [applyAt, hx]
    · rw [List.filter_cons_of_neg (by simpa using hx)]
      congr 1
      cases hj : key x with
      | none => simp [applyAt, hj]
      | some j =>
        have hne : k ≠ j := by
          rintro rfl
          exact hx hj
        simp [applyAt, hj, hne]

omit [DecidableEq κ] in
/-- Only one entry of a list contributes. -/
theorem flatMap_of_only {f : κ → List ι} {l : List κ} {a : κ} (hnodup : l.Nodup) (ha : a ∈ l)
    (hother : ∀ b, b ≠ a → f b = []) : l.flatMap f = f a := by
  induction l with
  | nil => cases ha
  | cons b l ih =>
    obtain ⟨hb, hl⟩ := List.nodup_cons.mp hnodup
    rw [List.flatMap_cons]
    rcases List.mem_cons.mp ha with rfl | hmem
    · have hrest : l.flatMap f = [] := by
        apply List.flatMap_eq_nil_iff.mpr
        intro c hc
        apply hother
        rintro rfl
        exact hb hc
      rw [hrest, List.append_nil]
    · have hne : b ≠ a := by
        rintro rfl
        exact hb hmem
      rw [hother b hne, ih hl hmem, List.nil_append]

end ConduitRuntime.KeyedFold
