import Mathlib.Data.BitVec
import Mathlib.Tactic.Common

/-! A 64-bit word packed from a 32-bit tag above a 32-bit index, and the update that increments
the tag modulo `2^32` while it replaces the index. -/
namespace ConduitRuntime.TaggedWord
set_option autoImplicit false

/-- The low 32 bits. -/
def index (w : BitVec 64) : ℕ := (w &&& 0xFFFFFFFF#64).toNat

/-- The high 32 bits. -/
def tag (w : BitVec 64) : ℕ := (w >>> 32).toNat

/-- `((head >> 32) + 1) << 32 | (low & 0xFFFFFFFF)`. -/
def advance (head low : BitVec 64) : BitVec 64 :=
  (((head >>> 32) + 1#64) <<< 32) ||| (low &&& 0xFFFFFFFF#64)

theorem index_eq (w : BitVec 64) : index w = w.toNat % 2 ^ 32 := by
  unfold index
  rw [BitVec.toNat_and]
  exact Nat.and_two_pow_sub_one_eq_mod w.toNat 32

theorem tag_eq (w : BitVec 64) : tag w = w.toNat / 2 ^ 32 := by
  unfold tag
  rw [BitVec.toNat_ushiftRight, Nat.shiftRight_eq_div_pow]

theorem index_lt (w : BitVec 64) : index w < 2 ^ 32 := by
  rw [index_eq]
  exact Nat.mod_lt _ (by decide)

theorem tag_lt (w : BitVec 64) : tag w < 2 ^ 32 := by
  rw [tag_eq]
  have := w.isLt
  omega

theorem advance_toNat (head low : BitVec 64) :
    (advance head low).toNat = (tag head + 1) % 2 ^ 32 * 2 ^ 32 + index low := by
  have hshift : (((head >>> 32) + 1#64) <<< 32).toNat = ((tag head + 1) % 2 ^ 32) <<< 32 := by
    rw [BitVec.toNat_shiftLeft, BitVec.toNat_add, Nat.shiftLeft_eq, Nat.shiftLeft_eq]
    change ((tag head + 1) % 2 ^ 64 * 2 ^ 32) % 2 ^ 64 = _
    have := tag_lt head
    omega
  have hor := Nat.shiftLeft_add_eq_or_of_lt (index_lt low) ((tag head + 1) % 2 ^ 32)
  unfold advance
  rw [BitVec.toNat_or, hshift]
  change _ ||| index low = _
  rw [← hor, Nat.shiftLeft_eq]

@[simp] theorem index_advance (head low : BitVec 64) : index (advance head low) = index low := by
  rw [index_eq, advance_toNat]
  have := index_lt low
  omega

@[simp] theorem tag_advance (head low : BitVec 64) :
    tag (advance head low) = (tag head + 1) % 2 ^ 32 := by
  rw [tag_eq, advance_toNat]
  have := index_lt low
  omega

theorem index_ofNat {n : ℕ} (h : n < 2 ^ 32) : index (BitVec.ofNat 64 n) = n := by
  rw [index_eq, BitVec.toNat_ofNat]
  omega

@[simp] theorem tag_zero : tag 0#64 = 0 := by decide

end ConduitRuntime.TaggedWord
