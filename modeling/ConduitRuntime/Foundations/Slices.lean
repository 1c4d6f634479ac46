import Mathlib.Data.List.DropRight
import Mathlib.Tactic.Common

/-! Stretches of a memory as lists, and the index loops that move one end of a stretch. -/
namespace ConduitRuntime.Slices
set_option autoImplicit false

variable {α : Type} (f : ℕ → α)

/-- The cells from `a` up to but not including `b`. -/
def slice (a b : ℕ) : List α := (List.range' a (b - a)).map f

@[simp] theorem slice_length (a b : ℕ) : (slice f a b).length = b - a := by
  simp [slice]

theorem slice_of_le {a b : ℕ} (h : b ≤ a) : slice f a b = [] := by
  simp [slice, Nat.sub_eq_zero_of_le h]

theorem slice_cons {a b : ℕ} (h : a < b) : slice f a b = f a :: slice f (a + 1) b := by
  obtain ⟨k, rfl⟩ : ∃ k, b = a + (k + 1) := ⟨b - a - 1, by omega⟩
  have e : a + (k + 1) - a = k + 1 := by omega
  have e' : a + (k + 1) - (a + 1) = k := by omega
  simp [slice, e, e', List.range'_succ]

theorem slice_append {a b c : ℕ} (hab : a ≤ b) (hbc : b ≤ c) :
    slice f a c = slice f a b ++ slice f b c := by
  obtain ⟨k, rfl⟩ := Nat.exists_eq_add_of_le hab
  obtain ⟨m, rfl⟩ := Nat.exists_eq_add_of_le hbc
  have e : a + k + m - a = k + m := by omega
  have e' : a + k + m - (a + k) = m := by omega
  simp only [slice, e, e', Nat.add_sub_cancel_left, ← List.map_append]
  congr 1
  exact (List.range'_append_1 ..).symm

theorem slice_snoc {a b : ℕ} (h : a ≤ b) : slice f a (b + 1) = slice f a b ++ [f b] := by
  rw [slice_append f h (Nat.le_succ b), slice_cons f (Nat.lt_succ_self b),
    slice_of_le f (Nat.le_refl (b + 1))]

theorem mem_slice {a b : ℕ} {x : α} : x ∈ slice f a b ↔ ∃ k, a ≤ k ∧ k < b ∧ f k = x := by
  simp only [slice, List.mem_map, List.mem_range'_1]
  constructor
  · rintro ⟨k, ⟨hk, hk'⟩, rfl⟩
    exact ⟨k, hk, by omega, rfl⟩
  · rintro ⟨k, hk, hk', rfl⟩
    exact ⟨k, ⟨hk, by omega⟩, rfl⟩

theorem slice_getLast? {a b : ℕ} (h : a < b) : (slice f a b).getLast? = some (f (b - 1)) := by
  obtain ⟨b, rfl⟩ : ∃ m, b = m + 1 := ⟨b - 1, by omega⟩
  rw [slice_snoc f (by omega), List.getLast?_concat, Nat.add_sub_cancel]

theorem slice_dropLast {a b : ℕ} (h : a < b) : (slice f a b).dropLast = slice f a (b - 1) := by
  obtain ⟨b, rfl⟩ : ∃ m, b = m + 1 := ⟨b - 1, by omega⟩
  rw [slice_snoc f (by omega), List.dropLast_concat, Nat.add_sub_cancel]

theorem slice_shift (n a b : ℕ) : slice (fun k => f (n + k)) a b = slice f (n + a) (n + b) := by
  rw [slice, slice, Nat.add_sub_add_left, ← List.map_add_range', List.map_map]
  rfl

theorem slice_congr {g : ℕ → α} {a b : ℕ} (h : ∀ k, a ≤ k → k < b → f k = g k) :
    slice f a b = slice g a b := by
  refine List.map_congr_left fun k hk => ?_
  obtain ⟨hk, hk'⟩ := List.mem_range'_1.mp hk
  exact h k hk (by omega)

/-- A decomposition of a stretch is one into stretches. -/
theorem slice_eq_append {a c : ℕ} {x y : List α} (hac : a ≤ c) (h : slice f a c = x ++ y) :
    a + x.length ≤ c ∧ slice f a (a + x.length) = x ∧ slice f (a + x.length) c = y := by
  have hlen : c - a = x.length + y.length := by
    rw [← slice_length f a c, h, List.length_append]
  have hle : a + x.length ≤ c := by omega
  rw [slice_append f (Nat.le_add_right a x.length) hle] at h
  obtain ⟨hx, hy⟩ := List.append_inj h (by simp)
  exact ⟨hle, hx, hy⟩

theorem slice_eq_cons {a c : ℕ} {x : α} {y : List α} (h : slice f a c = x :: y) :
    a < c ∧ f a = x ∧ slice f (a + 1) c = y := by
  have hlt : a < c := by
    have := congrArg List.length h
    simp at this
    omega
  rw [slice_cons f hlt] at h
  exact ⟨hlt, (List.cons.inj h).1, (List.cons.inj h).2⟩

/-- Either no index from `a` on meets `P`, or there is a first one that does. -/
theorem none_or_first (P : ℕ → Prop) [DecidablePred P] {a b : ℕ} (hab : a ≤ b) :
    (∀ k, a ≤ k → k < b → ¬ P k) ∨
      ∃ j, a ≤ j ∧ j < b ∧ P j ∧ ∀ k, a ≤ k → k < j → ¬ P k := by
  induction b, hab using Nat.le_induction with
  | base => exact .inl fun k hk hk' => absurd hk (by omega)
  | succ b hab ih =>
    rcases ih with hnone | ⟨j, haj, hjb, hj, hbefore⟩
    · by_cases hb : P b
      · exact .inr ⟨b, hab, Nat.lt_succ_self b, hb, hnone⟩
      · refine .inl fun k hk hk' => ?_
        rcases Nat.lt_succ_iff_lt_or_eq.mp hk' with hlt | rfl
        · exact hnone k hk hlt
        · exact hb
    · exact .inr ⟨j, haj, Nat.lt_succ_of_lt hjb, hj, hbefore⟩

/-- One trailing `x` removed. -/
def dropTrailing [DecidableEq α] (x : α) (w : List α) : List α :=
  if w.getLast? = some x then w.dropLast else w

theorem slice_dropTrailing [DecidableEq α] (x : α) (a b : ℕ) :
    slice f a (if a < b ∧ f (b - 1) = x then b - 1 else b) = dropTrailing x (slice f a b) := by
  unfold dropTrailing
  by_cases hab : a < b
  · rw [slice_getLast? f hab, slice_dropLast f hab]
    by_cases hx : f (b - 1) = x
    · rw [if_pos ⟨hab, hx⟩, if_pos (congrArg some hx)]
    · rw [if_neg (fun h => hx h.2), if_neg (fun h => hx (Option.some.inj h))]
  · simp [hab, slice_of_le f (Nat.le_of_not_lt hab)]

theorem dropTrailing_concat [DecidableEq α] (x : α) (w : List α) :
    dropTrailing x (w ++ [x]) = w := by
  simp [dropTrailing]

theorem dropTrailing_of_ne [DecidableEq α] {x : α} {w : List α} (h : w.getLast? ≠ some x) :
    dropTrailing x w = w := if_neg h

variable (p : α → Bool)

/-- Padding on both sides of a list that neither starts nor ends with it is what the two
removals take away. -/
theorem dropWhile_rdropWhile_padded {l r v : List α} (hl : ∀ x ∈ l, p x = true)
    (hr : ∀ x ∈ r, p x = true) (hhead : ∀ x ∈ v.head?, p x = false)
    (hlast : ∀ x ∈ v.getLast?, p x = false) :
    ((l ++ v ++ r).dropWhile p).rdropWhile p = v := by
  have hright : ∀ u : List α, (u ++ r).rdropWhile p = u.rdropWhile p := by
    intro u
    rw [List.rdropWhile, List.reverse_append,
      List.dropWhile_append_of_pos (fun x hx => hr x (List.mem_reverse.mp hx)), List.rdropWhile]
  rw [List.append_assoc, List.dropWhile_append_of_pos hl]
  cases v with
  | nil =>
    rw [List.nil_append, List.rdropWhile_eq_nil_iff]
    intro x hx
    exact hr x ((List.dropWhile_sublist p).subset hx)
  | cons x v =>
    have hx : ¬ p x = true := by simp [hhead x rfl]
    rw [List.cons_append, List.dropWhile_cons_of_neg hx, ← List.cons_append, hright,
      List.rdropWhile_eq_self_iff]
    intro hne
    rw [hlast _ (List.getLast?_eq_some_getLast hne)]
    exact Bool.false_ne_true

/-- `while (b < e && p(f[b])) ++b`, given enough fuel. -/
def skipWhile (e : ℕ) : ℕ → ℕ → ℕ
  | 0, b => b
  | fuel + 1, b => if b < e ∧ p (f b) = true then skipWhile e fuel (b + 1) else b

/-- `while (e > b && p(f[e - 1])) --e`, given enough fuel. -/
def backWhile (b : ℕ) : ℕ → ℕ → ℕ
  | 0, e => e
  | fuel + 1, e => if b < e ∧ p (f (e - 1)) = true then backWhile b fuel (e - 1) else e

theorem skipWhile_spec {e fuel b : ℕ} (hb : b ≤ e) (hfuel : e - b ≤ fuel) :
    b ≤ skipWhile f p e fuel b ∧ skipWhile f p e fuel b ≤ e ∧
      slice f (skipWhile f p e fuel b) e = (slice f b e).dropWhile p := by
  induction fuel generalizing b with
  | zero =>
    have he : e = b := by omega
    subst he
    exact ⟨Nat.le_refl _, Nat.le_refl _, by simp [skipWhile, slice_of_le]⟩
  | succ fuel ih =>
    unfold skipWhile
    by_cases hlt : b < e
    · rw [slice_cons f hlt]
      by_cases hp : p (f b) = true
      · obtain ⟨h₁, h₂, h₃⟩ := ih (b := b + 1) hlt (by omega)
        simp only [hlt, hp, and_self, if_true, List.dropWhile_cons]
        exact ⟨by omega, h₂, h₃⟩
      · rw [if_neg (fun h => hp h.2), List.dropWhile_cons_of_neg hp]
        exact ⟨Nat.le_refl _, hb, slice_cons f hlt⟩
    · rw [if_neg (fun h => hlt h.1), slice_of_le f (by omega)]
      exact ⟨Nat.le_refl _, hb, rfl⟩

theorem backWhile_spec {b fuel e : ℕ} (hb : b ≤ e) (hfuel : e - b ≤ fuel) :
    b ≤ backWhile f p b fuel e ∧ backWhile f p b fuel e ≤ e ∧
      slice f b (backWhile f p b fuel e) = (slice f b e).rdropWhile p := by
  induction fuel generalizing e with
  | zero =>
    have he : e = b := by omega
    subst he
    exact ⟨Nat.le_refl _, Nat.le_refl _, by simp [backWhile, slice_of_le]⟩
  | succ fuel ih =>
    unfold backWhile
    by_cases hlt : b < e
    · obtain ⟨e, rfl⟩ : ∃ m, e = m + 1 := ⟨e - 1, by omega⟩
      have hbe : b ≤ e := by omega
      rw [slice_snoc f hbe, Nat.add_sub_cancel]
      by_cases hp : p (f e) = true
      · obtain ⟨h₁, h₂, h₃⟩ := ih hbe (by omega)
        simp only [hlt, hp, and_self, if_true]
        rw [List.rdropWhile_concat_pos _ _ _ hp]
        exact ⟨h₁, by omega, h₃⟩
      · rw [if_neg (fun h => hp h.2), List.rdropWhile_concat_neg _ _ _ hp]
        exact ⟨hb, Nat.le_refl _, slice_snoc f hbe⟩
    · rw [if_neg (fun h => hlt h.1), slice_of_le f (by omega)]
      exact ⟨hb, Nat.le_refl _, rfl⟩

end ConduitRuntime.Slices
