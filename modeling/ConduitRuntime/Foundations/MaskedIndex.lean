import Mathlib.Data.Int.ModEq
import Mathlib.Data.Nat.Bitwise
import Mathlib.Tactic.Common

/-! Indexing a ring of a power-of-two capacity by masking a free-running counter. -/
namespace ConduitRuntime.MaskedIndex
set_option autoImplicit false

variable {w : ℕ} {capacity : BitVec w}

theorem toNat_succ {x : BitVec w} (h : x.toNat + 1 < 2 ^ w) : (x + 1).toNat = x.toNat + 1 := by
  have hone : (1 : BitVec w).toNat = 1 := by
    simp [Nat.mod_eq_of_lt (by omega : 1 < 2 ^ w)]
  rw [BitVec.toNat_add, hone, Nat.mod_eq_of_lt h]

theorem toNat_pred (hpos : 0 < capacity.toNat) : (capacity - 1).toNat = capacity.toNat - 1 := by
  have hlt := capacity.isLt
  have hone : (1 : BitVec w).toNat = 1 := by
    simp [Nat.mod_eq_of_lt (by omega : 1 < 2 ^ w)]
  rw [BitVec.toNat_sub, hone]
  have he : 2 ^ w - 1 + capacity.toNat = capacity.toNat - 1 + 2 ^ w := by omega
  rw [he, Nat.add_mod_right, Nat.mod_eq_of_lt (by omega)]

theorem exists_two_pow (hpow : capacity &&& (capacity - 1) = 0) (hpos : 0 < capacity.toNat) :
    ∃ k, k < w ∧ capacity.toNat = 2 ^ k := by
  have hnat : capacity.toNat &&& (capacity.toNat - 1) = 0 := by
    rw [← toNat_pred hpos, ← BitVec.toNat_and, hpow]
    simp
  obtain ⟨k, hk⟩ := (Nat.and_sub_one_eq_zero_iff_isPowerOfTwo (by omega)).mp hnat
  refine ⟨k, ?_, hk⟩
  have hlt := capacity.isLt
  rw [hk] at hlt
  exact (Nat.pow_lt_pow_iff_right (by omega)).mp hlt

theorem and_pred (hpow : capacity &&& (capacity - 1) = 0) (hpos : 0 < capacity.toNat) (n : ℕ) :
    n &&& (capacity.toNat - 1) = n % capacity.toNat := by
  obtain ⟨k, _, hk⟩ := exists_two_pow hpow hpos
  rw [hk, Nat.and_two_pow_sub_one_eq_mod]

theorem mask_toNat (hpow : capacity &&& (capacity - 1) = 0) (hpos : 0 < capacity.toNat)
    (x : BitVec w) : (x &&& (capacity - 1)).toNat = x.toNat % capacity.toNat := by
  rw [BitVec.toNat_and, toNat_pred hpos, and_pred hpow hpos]

theorem mod_ne {m n c : ℕ} (hmn : m < n) (hclose : n - m < c) : m % c ≠ n % c := by
  intro he
  have hdvd : c ∣ n - m := (Nat.modEq_iff_dvd' (Nat.le_of_lt hmn)).mp he
  have := Nat.le_of_dvd (by omega) hdvd
  omega

/-- Counters less than `capacity` apart use different slots. -/
theorem mask_ne (hpow : capacity &&& (capacity - 1) = 0) {i j : BitVec w}
    (hij : i.toNat < j.toNat) (hclose : j.toNat - i.toNat < capacity.toNat) :
    (i &&& (capacity - 1)).toNat ≠ (j &&& (capacity - 1)).toNat := by
  have hpos : 0 < capacity.toNat := by omega
  rw [mask_toNat hpow hpos, mask_toNat hpow hpos]
  exact mod_ne hij hclose

/-! ## Counters of more steps than the word can count -/

/-- The slot of a counter that may have wrapped is the slot of its true value. -/
theorem mask_ofNat (hpow : capacity &&& (capacity - 1) = 0) (hpos : 0 < capacity.toNat) (n : ℕ) :
    (BitVec.ofNat w n &&& (capacity - 1)).toNat = n % capacity.toNat := by
  obtain ⟨k, hk, hcap⟩ := exists_two_pow hpow hpos
  have hdvd : capacity.toNat ∣ 2 ^ w := by
    rw [hcap]
    exact Nat.pow_dvd_pow 2 (Nat.le_of_lt hk)
  rw [mask_toNat hpow hpos, BitVec.toNat_ofNat, Nat.mod_mod_of_dvd _ hdvd]

/-- Subtraction measures the distance of two counters, wrapped or not. -/
theorem ofNat_sub_toNat {m n : ℕ} (hmn : m ≤ n) (hclose : n - m < 2 ^ w) :
    (BitVec.ofNat w n - BitVec.ofNat w m).toNat = n - m := by
  obtain ⟨d, rfl⟩ := Nat.exists_eq_add_of_le hmn
  rw [Nat.add_sub_cancel_left] at hclose ⊢
  rw [BitVec.ofNat_add, BitVec.add_comm, BitVec.add_sub_cancel, BitVec.toNat_ofNat,
    Nat.mod_eq_of_lt hclose]

/-- Comparison is right about two counters exactly when only both or neither have wrapped. -/
theorem ofNat_le_iff {m n : ℕ} (hmn : m ≤ n) (hclose : n - m < 2 ^ w) :
    BitVec.ofNat w m ≤ BitVec.ofNat w n ↔
      (BitVec.ofNat w m).toNat + (n - m) = (BitVec.ofNat w n).toNat := by
  obtain ⟨d, rfl⟩ := Nat.exists_eq_add_of_le hmn
  have hsum := Nat.add_mod m d (2 ^ w)
  have hm := Nat.mod_lt m (Nat.two_pow_pos w)
  rw [Nat.add_sub_cancel_left] at hclose
  rw [Nat.mod_eq_of_lt hclose] at hsum
  rw [BitVec.le_def, BitVec.toNat_ofNat, BitVec.toNat_ofNat, hsum, Nat.add_sub_cancel_left]
  generalize m % 2 ^ w = r at hm ⊢
  by_cases hlt : r + d < 2 ^ w
  · rw [Nat.mod_eq_of_lt hlt]
    omega
  · have hwrap : (r + d) % 2 ^ w = r + d - 2 ^ w := by
      rw [Nat.mod_eq_sub_mod (by omega), Nat.mod_eq_of_lt (by omega)]
    omega

end ConduitRuntime.MaskedIndex
