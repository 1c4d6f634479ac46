import Mathlib.Algebra.BigOperators.Group.Finset.Piecewise
import Mathlib.Data.Int.CardIntervalMod

/-! The numbers below `k` dealt out in turn to `n` parties: the share of party `j` are those equal
to `j` modulo `n`. -/
namespace ConduitRuntime.Shares
open Finset
set_option autoImplicit false

def share (n j k : ℕ) : List ℕ := (List.range k).filter fun i => i % n = j

variable {n j k : ℕ}

theorem mem_share {i : ℕ} : i ∈ share n j k ↔ i < k ∧ i % n = j := by
  simp [share]

theorem share_succ (n j k : ℕ) :
    share n j (k + 1) = share n j k ++ if k % n = j then [k] else [] := by
  rw [share, List.range_succ, List.filter_append, share]
  by_cases h : k % n = j <;> simp [h]

theorem share_pairwise (n j k : ℕ) : (share n j k).Pairwise (· < ·) :=
  List.Pairwise.filter _ List.pairwise_lt_range

theorem share_length (hj : j < n) (k : ℕ) :
    (share n j k).length = k / n + if j < k % n then 1 else 0 := by
  have hcount := Nat.count_modEq_card k (Nat.zero_lt_of_lt hj) j
  rw [Nat.mod_eq_of_lt hj] at hcount
  rw [← hcount, Nat.count, List.countP_eq_length_filter, share]
  simp only [Nat.ModEq, Nat.mod_eq_of_lt hj]

/-- The party whose turn it is has as much as there were full rounds. -/
theorem share_length_turn (hn : 0 < n) (k : ℕ) : (share n (k % n) k).length = k / n := by
  rw [share_length (Nat.mod_lt k hn), if_neg (lt_irrefl _), Nat.add_zero]

/-- After full rounds all have the same. -/
theorem share_length_rounds (hj : j < n) (m : ℕ) : (share n j (n * m)).length = m := by
  rw [share_length hj, Nat.mul_div_cancel_left m (Nat.zero_lt_of_lt hj), Nat.mul_mod_right,
    if_neg (Nat.not_lt_zero j), Nat.add_zero]

theorem sum_share_length (hn : 0 < n) (k : ℕ) :
    ∑ j ∈ range n, (share n j k).length = k := by
  induction k with
  | zero => simp [share]
  | succ k ih =>
    have hone : ∑ j ∈ range n, (if k % n = j then [k] else ([] : List ℕ)).length = 1 := by
      have hlen : ∀ j, (if k % n = j then [k] else ([] : List ℕ)).length =
          if k % n = j then 1 else 0 := by
        intro j
        split_ifs <;> rfl
      simp only [hlen, Finset.sum_ite_eq, Finset.mem_range, Nat.mod_lt k hn, if_true]
    simp only [share_succ, List.length_append, Finset.sum_add_distrib, ih, hone]

/-- In every window of `n` numbers each party has one. -/
theorem exists_mem_window (hj : j < n) (m : ℕ) : ∃ x, m ≤ x ∧ x < m + n ∧ x % n = j := by
  have hn : 0 < n := Nat.zero_lt_of_lt hj
  refine ⟨m + (j + (n - m % n)) % n, Nat.le_add_right _ _,
    Nat.add_lt_add_left (Nat.mod_lt _ hn) m, ?_⟩
  have hlt := Nat.mod_lt m hn
  have hdiv := Nat.div_add_mod m n
  have hsum : m + (j + (n - m % n)) = j + n * (m / n + 1) := by
    rw [Nat.mul_add, Nat.mul_one]
    omega
  rw [Nat.add_mod_mod, hsum, Nat.add_mul_mod_self_left, Nat.mod_eq_of_lt hj]

theorem share_add (n j m d : ℕ) :
    share n j (m + d) = share n j m ++ ((List.range d).map (m + ·)).filter fun i => i % n = j := by
  rw [share, List.range_add, List.filter_append, share]

/-- What a share has below `m`. -/
theorem filter_share {m : ℕ} (h : m ≤ k) : (share n j k).filter (· < m) = share n j m := by
  obtain ⟨d, rfl⟩ := Nat.exists_eq_add_of_le h
  have hlow : (share n j m).filter (· < m) = share n j m := by
    apply List.filter_eq_self.mpr
    intro i hi
    simpa using (mem_share.mp hi).1
  have hhigh : (((List.range d).map (m + ·)).filter fun i => i % n = j).filter (· < m) = [] := by
    apply List.filter_eq_nil_iff.mpr
    intro i hi
    obtain ⟨y, -, rfl⟩ := List.mem_map.mp (List.mem_of_mem_filter hi)
    simp
  rw [share_add, List.filter_append, hlow, hhigh, List.append_nil]

theorem filter_share_prefix (n j k m : ℕ) : (share n j k).filter (· < m) <+: share n j m := by
  rcases Nat.le_total m k with h | h
  · rw [filter_share h]
  · have hself : (share n j k).filter (· < m) = share n j k := by
      apply List.filter_eq_self.mpr
      intro i hi
      have hlt := (mem_share.mp hi).1
      simpa using Nat.lt_of_lt_of_le hlt h
    obtain ⟨d, rfl⟩ := Nat.exists_eq_add_of_le h
    rw [hself, share_add]
    exact List.prefix_append _ _

/-- A share that goes past `m` by less than a round: what is below `m`, and one number more. -/
theorem share_split {m x : ℕ} {a b : List ℕ} (h : share n j k = a ++ x :: b) (hk : k ≤ m + n)
    (hx : m ≤ x) (ha : ∀ i ∈ a, i < m) : a = share n j m ∧ b = [] := by
  have hmem : ∀ i ∈ a ++ x :: b, i < k ∧ i % n = j := by
    intro i hi
    rw [← h] at hi
    exact mem_share.mp hi
  have hb : b = [] := by
    apply List.eq_nil_iff_forall_not_mem.mpr
    intro y hy
    have hsorted := share_pairwise n j k
    rw [h] at hsorted
    have hlt : x < y := (List.pairwise_cons.mp (List.pairwise_append.mp hsorted).2.1).1 y hy
    obtain ⟨hyk, hyj⟩ := hmem y (by simp [hy])
    obtain ⟨-, hxj⟩ := hmem x (by simp)
    have hdvd : n ∣ y - x := (Nat.modEq_iff_dvd' hlt.le).mp (hxj.trans hyj.symm)
    have hle := Nat.le_of_dvd (by omega) hdvd
    omega
  refine ⟨?_, hb⟩
  subst hb
  obtain ⟨hxk, -⟩ := hmem x (by simp)
  have hbelow := filter_share (n := n) (j := j) (show m ≤ k by omega)
  have hcut : (a ++ [x]).filter (· < m) = a := by
    rw [List.filter_append, List.filter_eq_self.mpr (by simpa using ha)]
    simp [hx]
  rw [h, hcut] at hbelow
  exact hbelow

/-- One summand changes. -/
theorem sum_range_change {f g : ℕ → ℕ} (hj : j < n) (h : ∀ i, i ≠ j → g i = f i) :
    ∑ i ∈ range n, g i + f j = ∑ i ∈ range n, f i + g j := by
  have hmem : j ∈ range n := Finset.mem_range.mpr hj
  have hrest : ∑ i ∈ (range n).erase j, g i = ∑ i ∈ (range n).erase j, f i :=
    Finset.sum_congr rfl fun i hi => h i (Finset.ne_of_mem_erase hi)
  rw [← Finset.add_sum_erase _ f hmem, ← Finset.add_sum_erase _ g hmem, hrest]
  omega

/-- What one party has changes. -/
theorem flatMap_range_change {α : Type} {f g : ℕ → List α} (hj : j < n)
    (h : ∀ i, i ≠ j → g i = f i) :
    ((List.range n).flatMap g ++ f j).Perm ((List.range n).flatMap f ++ g j) := by
  induction n with
  | zero => exact absurd hj (Nat.not_lt_zero j)
  | succ n ih =>
    rw [List.range_succ, List.flatMap_append, List.flatMap_append, List.flatMap_singleton,
      List.flatMap_singleton]
    by_cases hjn : j = n
    · subst hjn
      have hsame : (List.range j).flatMap g = (List.range j).flatMap f := by
        apply List.flatMap_congr
        intro i hi
        exact h i (Nat.ne_of_lt (List.mem_range.mp hi))
      rw [hsame, List.append_assoc, List.append_assoc]
      exact List.perm_append_comm.append_left _
    · rw [h n (Ne.symm hjn), List.append_assoc, List.append_assoc]
      refine (List.perm_append_comm.append_left _).trans ?_
      rw [← List.append_assoc]
      refine ((ih (by omega)).append_right (f n)).trans ?_
      rw [List.append_assoc]
      exact List.perm_append_comm.append_left _

end ConduitRuntime.Shares
