import Mathlib.Logic.ExistsUnique
import Mathlib.Tactic.Common

/-! Items numbered below `n`, each referred to from exactly one location. Moving one item from its
location to another keeps this so; the locations may be of any kind. -/
namespace ConduitRuntime.Placement
set_option autoImplicit false

/-- Every reference is to an item below `n`, and every such item has exactly one location. -/
structure Placed {L : Type} (n : ℕ) (refs : L → ℕ → Prop) : Prop where
  lt : ∀ x i, refs x i → i < n
  exists_unique : ∀ i < n, ∃! x, refs x i

section Placed
variable {L : Type} {n : ℕ} {refs refs' : L → ℕ → Prop}

theorem Placed.unique (h : Placed n refs) {x y : L} {i : ℕ} (hx : refs x i) (hy : refs y i) :
    x = y :=
  (h.exists_unique i (h.lt x i hx)).unique hx hy

theorem Placed.iff_eq (h : Placed n refs) {x : L} {i : ℕ} (hx : refs x i) (z : L) :
    refs z i ↔ z = x := by
  constructor
  · intro hz
    exact h.unique hz hx
  · rintro rfl
    exact hx

theorem Placed.congr (h : Placed n refs) (he : ∀ x i, refs' x i ↔ refs x i) : Placed n refs' := by
  have hrefs : refs' = refs := by
    funext x i
    exact propext (he x i)
  rw [hrefs]
  exact h

/-- Item `i` moves from `x` to `y`; no other reference changes. -/
theorem Placed.move (h : Placed n refs) {x : L} (y : L) {i : ℕ} (hi : refs x i)
    (hself : ∀ z, refs' z i ↔ z = y) (hother : ∀ z j, j ≠ i → (refs' z j ↔ refs z j)) :
    Placed n refs' where
  lt z j hz := by
    by_cases hj : j = i
    · subst hj
      exact h.lt x j hi
    · exact h.lt z j ((hother z j hj).mp hz)
  exists_unique j hj := by
    by_cases he : j = i
    · subst he
      exact ⟨y, (hself y).mpr rfl, fun z hz => (hself z).mp hz⟩
    · obtain ⟨z, hz, hu⟩ := h.exists_unique j hj
      exact ⟨z, (hother z j he).mpr hz, fun v hv => hu v ((hother v j he).mp hv)⟩

/-- The same move, read off the two locations it touches; with `o = none` nothing moves. -/
theorem Placed.relocate (h : Placed n refs) {x y : L} (hxy : x ≠ y) {o : Option ℕ}
    (ho : ∀ i, o = some i → refs x i) (hx : ∀ j, refs' x j ↔ refs x j ∧ o ≠ some j)
    (hy : ∀ j, refs' y j ↔ refs y j ∨ o = some j)
    (hother : ∀ z, z ≠ x → z ≠ y → ∀ j, refs' z j ↔ refs z j) : Placed n refs' := by
  have hsame : ∀ z j, o ≠ some j → (refs' z j ↔ refs z j) := by
    intro z j hj
    by_cases hzx : z = x
    · subst hzx
      simp [hx, hj]
    · by_cases hzy : z = y
      · subst hzy
        simp [hy, hj]
      · exact hother z hzx hzy j
  cases o with
  | none => exact h.congr fun z j => hsame z j (by simp)
  | some i =>
    refine h.move y (ho i rfl) (fun z => ?_) (fun z j hj => hsame z j (by simp [Ne.symm hj]))
    by_cases hzx : z = x
    · subst hzx
      simp [hx, hxy]
    · by_cases hzy : z = y
      · subst hzy
        simp [hy]
      · rw [hother z hzx hzy, h.iff_eq (ho i rfl)]
        exact iff_of_false hzx hzy

end Placed

end ConduitRuntime.Placement
