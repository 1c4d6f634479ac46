import Mathlib.Data.List.Range
import Mathlib.Data.Nat.ModEq
import Mathlib.Logic.Function.Basic
import Mathlib.Tactic.Common

/-! A cyclic array of `size` slots with a read and a write index: how many slots lie between the
two, which values they hold in order, and what advancing either index does to both. -/
namespace ConduitRuntime.CyclicWindow
set_option autoImplicit false

/-! ## One wrap -/

theorem mod_of_lt_two_mul {size a : ℕ} (h : a < 2 * size) :
    a % size = if a < size then a else a - size := by
  split_ifs with hlt
  · exact Nat.mod_eq_of_lt hlt
  · rw [Nat.mod_eq_sub_mod (by omega), Nat.mod_eq_of_lt (by omega)]

/-- The slots from the read index `r` up to, not including, the write index `w`. -/
def occupied (size r w : ℕ) : ℕ := (w + size - r) % size

section Occupied
variable {size r w : ℕ}

theorem occupied_eq (hr : r < size) (hw : w < size) :
    occupied size r w = if r ≤ w then w - r else w + size - r := by
  unfold occupied
  rw [mod_of_lt_two_mul (by omega)]
  split_ifs <;> omega

theorem occupied_lt (hsize : 0 < size) : occupied size r w < size := Nat.mod_lt _ hsize

theorem occupied_eq_zero_iff (hr : r < size) (hw : w < size) : occupied size r w = 0 ↔ r = w := by
  rw [occupied_eq hr hw]
  split_ifs <;> omega

theorem add_occupied_mod (hr : r < size) (hw : w < size) : (r + occupied size r w) % size = w := by
  have ho := occupied_lt (r := r) (w := w) (show 0 < size by omega)
  rw [mod_of_lt_two_mul (by omega), occupied_eq hr hw]
  split_ifs <;> omega

theorem advance_eq_read_iff (hr : r < size) (hw : w < size) :
    (w + 1) % size = r ↔ occupied size r w + 1 = size := by
  rw [mod_of_lt_two_mul (by omega), occupied_eq hr hw]
  split_ifs <;> omega

theorem occupied_advance_write (hr : r < size) (hw : w < size) (h : (w + 1) % size ≠ r) :
    occupied size r ((w + 1) % size) = occupied size r w + 1 := by
  have hw' : (w + 1) % size < size := Nat.mod_lt _ (by omega)
  rw [occupied_eq hr hw', occupied_eq hr hw]
  rw [mod_of_lt_two_mul (by omega)] at h hw' ⊢
  split_ifs at h hw' ⊢ <;> omega

theorem occupied_advance_read (hr : r < size) (hw : w < size) (h : r ≠ w) :
    occupied size ((r + 1) % size) w + 1 = occupied size r w := by
  have hr' : (r + 1) % size < size := Nat.mod_lt _ (by omega)
  rw [occupied_eq hr' hw, occupied_eq hr hw]
  rw [mod_of_lt_two_mul (by omega)] at hr' ⊢
  split_ifs at hr' ⊢ <;> omega

/-- Distinct offsets below `size` are distinct slots. -/
theorem slot_injective {i j : ℕ} (hi : i < size) (hj : j < size)
    (h : (r + i) % size = (r + j) % size) : i = j := by
  have hmod : i % size = j % size := Nat.ModEq.add_left_cancel' r h
  rwa [Nat.mod_eq_of_lt hi, Nat.mod_eq_of_lt hj] at hmod

end Occupied

/-! ## The values in a window -/

section Window
variable {α : Type} {size r count : ℕ} {f : ℕ → α}

/-- The values of `count` consecutive slots from `r` on. -/
def window (f : ℕ → α) (size r count : ℕ) : List α :=
  (List.range count).map fun i => f ((r + i) % size)

@[simp] theorem window_zero : window f size r 0 = [] := rfl

@[simp] theorem window_length : (window f size r count).length = count := by simp [window]

theorem window_succ_back :
    window f size r (count + 1) = window f size r count ++ [f ((r + count) % size)] := by
  simp [window, List.range_succ]

theorem window_succ_front (hr : r < size) :
    window f size r (count + 1) = f r :: window f size ((r + 1) % size) count := by
  simp only [window, List.range_succ_eq_map, List.map_cons, List.map_map, Nat.add_zero,
    Nat.mod_eq_of_lt hr]
  congr 1
  apply List.map_congr_left
  intro i _
  simp only [Function.comp_apply, Nat.mod_add_mod]
  congr 2
  omega

/-- Writing a slot past the end of a window leaves the window as it is. -/
theorem window_update {k : ℕ} (x : α) (hk : count ≤ k) (hsize : k < size) :
    window (Function.update f ((r + k) % size) x) size r count = window f size r count := by
  apply List.map_congr_left
  intro i hi
  have hi' := List.mem_range.mp hi
  apply Function.update_of_ne
  intro he
  have := slot_injective (r := r) (show i < size by omega) hsize he
  omega

theorem mem_window_iff {x : α} :
    x ∈ window f size r count ↔ ∃ i < count, f ((r + i) % size) = x := by
  simp [window]

end Window

end ConduitRuntime.CyclicWindow
