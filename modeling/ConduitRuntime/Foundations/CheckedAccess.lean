import ConduitRuntime.Foundations.Slices

/-! Scans whose every access goes through a partial memory: a scan that leaves the range of the
memory has no result. Over a memory that is `f` below `n`, a scan that stays below `n` gives what
the same scan gives over `f`. -/
namespace ConduitRuntime.CheckedAccess
open Slices
set_option autoImplicit false

/-- The entry `a i` of an array of `n` entries; nothing beyond its end. -/
def entry {α : Type} (n : ℕ) (a : ℕ → α) (i : ℕ) : Option α := if i < n then some (a i) else none

theorem entry_of_lt {α : Type} {n : ℕ} (a : ℕ → α) {i : ℕ} (h : i < n) :
    entry n a i = some (a i) := if_pos h

/-- `b && x`, where `x` is not evaluated if `b` is false. -/
def andAlso (b : Bool) (x : Option Bool) : Option Bool := if b then x else some false

theorem andAlso_of {b c : Bool} {x : Option Bool} (h : b = true → x = some c) :
    andAlso b x = some (b && c) := by
  cases b with
  | false => rfl
  | true => exact h rfl

variable {α : Type} (read : ℕ → Option α) (p : α → Bool)

/-- `for (k = a; k < b; ++k) if (p(read[k])) return true; return false`. -/
def anyBetween (a b : ℕ) : Option Bool := (List.range' a (b - a)).anyM fun k => (read k).map p

/-- `while (b < e && p(read[b])) ++b`, given enough fuel. -/
def skipChecked (e : ℕ) : ℕ → ℕ → Option ℕ
  | 0, b => some b
  | fuel + 1, b => do
    if ← andAlso (b < e) ((read b).map p) then skipChecked e fuel (b + 1) else some b

/-- `while (e > b && p(read[e - 1])) --e`, given enough fuel. -/
def backChecked (b : ℕ) : ℕ → ℕ → Option ℕ
  | 0, e => some e
  | fuel + 1, e => do
    if ← andAlso (b < e) ((read (e - 1)).map p) then backChecked b fuel (e - 1) else some e

/-! ## Scans that stay in range -/

section InRange
variable {read} {f : ℕ → α} {n : ℕ} (hread : ∀ i, i < n → read i = some (f i))
include hread

theorem anyBetween_eq {a b : ℕ} (hb : b ≤ n) :
    anyBetween read p a b = some ((slice f a b).any p) := by
  have hscan : ∀ l : List ℕ, (∀ k ∈ l, k < n) →
      l.anyM (fun k => (read k).map p) = some ((l.map f).any p) := by
    intro l hl
    induction l with
    | nil => rfl
    | cons k l ih =>
      have htail := ih fun j hj => hl j (List.mem_cons_of_mem k hj)
      rw [List.anyM, hread k (hl k List.mem_cons_self), htail]
      simp only [Option.map_some, Option.bind_eq_bind, Option.bind_some, List.map_cons,
        List.any_cons]
      cases p (f k) <;> rfl
  refine hscan _ fun k hk => ?_
  obtain ⟨_, hlt⟩ := List.mem_range'_1.mp hk
  omega

theorem skipChecked_eq {e : ℕ} (he : e ≤ n) (fuel b : ℕ) :
    skipChecked read p e fuel b = some (skipWhile f p e fuel b) := by
  induction fuel generalizing b with
  | zero => rfl
  | succ fuel ih =>
    have htest : andAlso (b < e) ((read b).map p) = some (decide (b < e) && p (f b)) := by
      refine andAlso_of fun hlt => ?_
      have hlt := of_decide_eq_true hlt
      rw [hread b (by omega), Option.map_some]
    simp only [skipChecked, skipWhile, htest, ih, Option.bind_eq_bind, Option.bind_some,
      Bool.and_eq_true, decide_eq_true_eq]
    split <;> rfl

theorem backChecked_eq {b : ℕ} (fuel e : ℕ) (he : e ≤ n) :
    backChecked read p b fuel e = some (backWhile f p b fuel e) := by
  induction fuel generalizing e with
  | zero => rfl
  | succ fuel ih =>
    have htest : andAlso (b < e) ((read (e - 1)).map p) =
        some (decide (b < e) && p (f (e - 1))) := by
      refine andAlso_of fun hlt => ?_
      have hlt := of_decide_eq_true hlt
      rw [hread (e - 1) (by omega), Option.map_some]
    simp only [backChecked, backWhile, htest, ih (e - 1) (by omega), Option.bind_eq_bind,
      Option.bind_some, Bool.and_eq_true, decide_eq_true_eq]
    split <;> rfl

end InRange

end ConduitRuntime.CheckedAccess
