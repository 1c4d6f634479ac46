import Mathlib.Data.BitVec
import Mathlib.Data.List.Basic
import Mathlib.Tactic.Common

/-! Counters in memory explained by the trace: each event `mark i` is one increment of the counter
`i`, of `w` bits. -/
namespace ConduitRuntime.Tally
set_option autoImplicit false

variable {ι ε : Type} [DecidableEq ε] {w : ℕ} {mark : ι → ε} {es : List ε} {c : ι → BitVec w}

/-- How often the event of `i` has happened. -/
def tally (mark : ι → ε) (es : List ε) (i : ι) : ℕ := es.count (mark i)

theorem tally_snoc (mark : ι → ε) (es : List ε) (e : ε) (i : ι) :
    tally mark (es ++ [e]) i = tally mark es i + if e = mark i then 1 else 0 := by
  rw [tally, List.count_append, List.count_singleton]
  simp [tally]

theorem tally_append_le (mark : ι → ε) (pre post : List ε) (i : ι) :
    tally mark pre i ≤ tally mark (pre ++ post) i := by
  rw [tally, tally, List.count_append]
  exact Nat.le_add_right _ _

/-- The counters show what happened, as far as their width allows. -/
def Shows (mark : ι → ε) (es : List ε) (c : ι → BitVec w) : Prop :=
  ∀ i, c i = BitVec.ofNat w (tally mark es i)

theorem shows_nil (mark : ι → ε) : Shows mark [] (fun _ => (0 : BitVec w)) := fun _ => rfl

theorem Shows.increment [DecidableEq ι] (h : Shows mark es c) (hmark : Function.Injective mark)
    (i : ι) : Shows mark (es ++ [mark i]) (Function.update c i (c i + 1)) := by
  intro j
  rw [tally_snoc]
  by_cases hj : j = i
  · subst hj
    rw [Function.update_self, h j, if_pos rfl, BitVec.ofNat_add]
    rfl
  · rw [Function.update_of_ne hj, h j, if_neg (fun he => hj (hmark he).symm)]
    rfl

theorem Shows.other (h : Shows mark es c) {e : ε} (he : ∀ i, e ≠ mark i) :
    Shows mark (es ++ [e]) c := by
  intro i
  rw [tally_snoc, if_neg (he i)]
  exact h i

end ConduitRuntime.Tally
