import Mathlib.Data.List.Basic
import Mathlib.Tactic.Common

/-! A byte stream that is a concatenation of blocks of one length, cut anywhere. -/
namespace ConduitRuntime.Blocks
set_option autoImplicit false

variable {α : Type} {n : ℕ} {l : List (List α)} {s : List α}

theorem flatten_length (h : ∀ b ∈ l, b.length = n) : l.flatten.length = l.length * n := by
  induction l with
  | nil => simp
  | cons b l ih =>
    have hl := ih fun c hc => h c (by simp [hc])
    have hb := h b (by simp)
    simp only [List.flatten_cons, List.length_append, List.length_cons, hl, hb]
    rw [Nat.succ_mul]
    omega

theorem flatten_drop (h : ∀ b ∈ l, b.length = n) (c : ℕ) :
    l.flatten.drop (c * n) = (l.drop c).flatten := by
  induction c generalizing l with
  | zero => simp
  | succ c ih =>
    cases l with
    | nil => simp
    | cons b l =>
      have hb := h b (by simp)
      have he : (c + 1) * n = b.length + c * n := by
        rw [Nat.succ_mul, hb]
        omega
      rw [he, List.flatten_cons, List.drop_length_add_append, List.drop_succ_cons]
      exact ih fun d hd => h d (by simp [hd])

/-- A cut inside one block is a cut of that block. -/
theorem flatten_inside (h : ∀ b ∈ l, b.length = n) {q i k : ℕ} (hq : q < l.length)
    (hk : i + k ≤ n) : (l.flatten.drop (q * n + i)).take k = (l[q].drop i).take k := by
  have hb : l[q].length = n := h _ (List.getElem_mem hq)
  rw [← List.drop_drop, flatten_drop h, List.drop_eq_getElem_cons hq, List.flatten_cons,
    List.drop_append_of_le_length (by omega),
    List.take_append_of_le_length (by simp only [List.length_drop]; omega)]

/-- The next `k` bytes of the block that a prefix has reached extend the prefix. -/
theorem append_inside (h : ∀ b ∈ l, b.length = n) (hs : s <+: l.flatten) {q i k : ℕ}
    (hlen : s.length = q * n + i) (hq : q < l.length) (hk : i + k ≤ n) :
    s ++ (l[q].drop i).take k <+: l.flatten := by
  have he : s ++ (l[q].drop i).take k = l.flatten.take (s.length + k) := by
    rw [List.take_add, ← List.prefix_iff_eq_take.mp hs, hlen, flatten_inside h hq hk]
  rw [he]
  exact List.take_prefix _ _

theorem block_of_prefix (h : ∀ b ∈ l, b.length = n) (hs : s <+: l.flatten) (hn : 0 < n) {c : ℕ}
    (hc : (c + 1) * n ≤ s.length) :
    ∃ hq : c < l.length, (s.drop (c * n)).take n = l.get ⟨c, hq⟩ := by
  have hle : s.length ≤ l.length * n := by
    rw [← flatten_length h]
    exact hs.length_le
  have hq : c < l.length := Nat.le_of_mul_le_mul_right (Nat.le_trans hc hle) hn
  refine ⟨hq, ?_⟩
  have hb : l[c].length = n := h _ (List.getElem_mem hq)
  have hin := flatten_inside (i := 0) h hq (Nat.le_of_eq (Nat.zero_add n))
  obtain ⟨rest, hrest⟩ := hs
  rw [Nat.add_zero, List.drop_zero, List.take_of_length_le (Nat.le_of_eq hb), ← hrest,
    List.drop_append_of_le_length (by rw [Nat.succ_mul] at hc; omega),
    List.take_append_of_le_length (by
      rw [Nat.succ_mul] at hc
      simp only [List.length_drop]
      omega)] at hin
  exact hin

theorem take_drop_succ {m q : ℕ} (hq : m + q < s.length) :
    (s.drop m).take (q + 1) = (s.drop m).take q ++ [s.get ⟨m + q, hq⟩] := by
  rw [List.take_succ_eq_append_getElem (by simp only [List.length_drop]; omega)]
  simp

/-! ## The whole blocks of a stream -/

/-- The whole blocks of length `n` in `s`, without a shorter rest. -/
def chunks (n : ℕ) (s : List α) : List (List α) :=
  (List.range (s.length / n)).map fun q => (s.drop (q * n)).take n

theorem chunk_count_le (h : ∀ b ∈ l, b.length = n) (hs : s <+: l.flatten) :
    s.length / n ≤ l.length := by
  refine Nat.div_le_of_le_mul ?_
  rw [Nat.mul_comm, ← flatten_length h]
  exact hs.length_le

theorem chunks_of_prefix (h : ∀ b ∈ l, b.length = n) (hs : s <+: l.flatten) (hn : 0 < n) :
    chunks n s = l.take (s.length / n) := by
  have hle := chunk_count_le h hs
  apply List.ext_getElem
  · simp only [chunks, List.length_map, List.length_range, List.length_take]
    omega
  · intro q hq hq'
    have hc : (q + 1) * n ≤ s.length := by
      simp only [chunks, List.length_map, List.length_range] at hq
      exact (Nat.le_div_iff_mul_le hn).mp hq
    obtain ⟨_, hblock⟩ := block_of_prefix h hs hn hc
    simp only [chunks, List.getElem_map, List.getElem_range, List.getElem_take]
    exact hblock

/-- A prefix of a stream of blocks: whole blocks, and then a part of the next one. -/
theorem split_of_prefix (h : ∀ b ∈ l, b.length = n) (hs : s <+: l.flatten) (hn : 0 < n) :
    ∃ t, s = (l.take (s.length / n)).flatten ++ t ∧ t.length < n ∧
      (t ≠ [] → ∃ b, l[s.length / n]? = some b ∧ t <+: b) := by
  have hle := chunk_count_le h hs
  have hdiv := Nat.div_add_mod s.length n
  have hmod := Nat.mod_lt s.length hn
  generalize s.length / n = c at hle hdiv ⊢
  have hwhole : (l.take c).flatten.length = n * c := by
    rw [flatten_length fun b hb => h b (List.mem_of_mem_take hb), List.length_take,
      Nat.min_eq_left hle, Nat.mul_comm]
  have hcut : l.flatten = (l.take c).flatten ++ (l.drop c).flatten := by
    rw [← List.flatten_append, List.take_append_drop]
  -- the whole blocks are themselves a prefix of the stream, and no longer than `s`
  rw [hcut] at hs
  obtain ⟨t, rfl⟩ := List.prefix_of_prefix_length_le (List.prefix_append _ _) hs (by omega)
  have hlen : t.length < n := by
    rw [List.length_append, hwhole] at hdiv hmod
    omega
  have hrest : t <+: (l.drop c).flatten := (List.prefix_append_right_inj _).mp hs
  refine ⟨t, rfl, hlen, fun hne => ?_⟩
  cases hblocks : l.drop c with
  | nil =>
    rw [hblocks, List.flatten_nil, List.prefix_nil] at hrest
    exact absurd hrest hne
  | cons b r =>
    rw [hblocks, List.flatten_cons] at hrest
    have hb : b ∈ l := List.mem_of_mem_drop (hblocks ▸ List.mem_cons_self)
    refine ⟨b, ?_, List.prefix_of_prefix_length_le hrest (List.prefix_append b _) ?_⟩
    · rw [← List.head?_drop, hblocks, List.head?_cons]
    · rw [h b hb]
      exact Nat.le_of_lt hlen

/-! ## Streams that resume -/

variable {stream stream' : ℕ → List α}

/-- The number of blocks that the streams before the one with number `k` have completed. -/
def completed (n : ℕ) (stream : ℕ → List α) : ℕ → ℕ
  | 0 => 0
  | k + 1 => completed n stream k + (stream k).length / n

theorem completed_congr {k : ℕ} (h : ∀ j, j < k → stream j = stream' j) :
    completed n stream k = completed n stream' k := by
  induction k with
  | zero => rfl
  | succ k ih =>
    rw [completed, completed, ih fun j hj => h j (Nat.lt_succ_of_lt hj), h k (Nat.lt_succ_self k)]

theorem completed_of_empty {m k : ℕ} (h : ∀ j, m ≤ j → stream j = []) (hk : m ≤ k) :
    completed n stream k = completed n stream m := by
  induction hk with
  | refl => rfl
  | step hk ih => rw [completed, ih, h _ hk, List.length_nil, Nat.zero_div, Nat.add_zero]

/-- If every stream starts with the first block that the streams before it have not completed, then
together they complete the blocks in order. -/
theorem chunks_of_resumed (h : ∀ b ∈ l, b.length = n) (hn : 0 < n)
    (hs : ∀ k, stream k <+: (l.drop (completed n stream k)).flatten) (m : ℕ) :
    ((List.range m).flatMap fun k => chunks n (stream k)) = l.take (completed n stream m) := by
  induction m with
  | zero => rfl
  | succ m ih =>
    rw [List.range_succ, List.flatMap_append, List.flatMap_singleton, ih, completed, List.take_add,
      chunks_of_prefix (fun b hb => h b (List.mem_of_mem_drop hb)) (hs m) hn]

end ConduitRuntime.Blocks
