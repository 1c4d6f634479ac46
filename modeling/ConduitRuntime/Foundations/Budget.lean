import ConduitRuntime.Foundations.Execution

/-! Schedules that a budget bounds: in the states of interest every counted action, and everything
an event shows, is paid from a measure of the state. -/
namespace ConduitRuntime.Execution
set_option autoImplicit false

variable {σ α ε β : Type}

theorem countP_cons_toNat (counts : α → Bool) (a : α) (as : List α) :
    (a :: as).countP counts = as.countP counts + (counts a).toNat := by
  cases h : counts a <;> simp [h]

theorem run_within_budget {step : σ → α → Option (σ × ε)} {ok : σ → α → Prop}
    [∀ s a, Decidable (ok s a)] (I : σ → Prop) {allowed : α → Prop} (counts : α → Bool)
    (left : σ → ℕ) (shows : ε → Option β) (due : σ → ℕ)
    (hstep : ∀ s a t e, I s → allowed a → step s a = some (t, e) →
      I t ∧ (counts a).toNat + left t ≤ left s ∧ (shows e).toList.length + due t ≤ due s)
    {s u : σ} {as : List α} {es : List ε} (hs : I s) (has : ∀ a ∈ as, allowed a)
    (hrun : run step ok s as = some (es, u)) :
    I u ∧ as.countP counts + left u ≤ left s ∧ (es.filterMap shows).length + due u ≤ due s := by
  induction as generalizing s es with
  | nil =>
    obtain ⟨rfl, rfl⟩ : [] = es ∧ s = u := by simpa [run] using hrun
    exact ⟨hs, by simp, by simp⟩
  | cons a as ih =>
    unfold run at hrun
    split_ifs at hrun with hok
    split at hrun
    · cases hrun
    · rename_i t e ht
      obtain ⟨⟨fs, v⟩, hr, he⟩ := Option.map_eq_some_iff.mp hrun
      obtain ⟨rfl, rfl⟩ : e :: fs = es ∧ v = u := by simpa using he
      obtain ⟨hI, hleft, hdue⟩ := hstep s a t e hs (has a List.mem_cons_self) ht
      obtain ⟨hI', hleft', hdue'⟩ := ih hI (fun b hb => has b (List.mem_cons_of_mem a hb)) hr
      have hshow : ((e :: fs).filterMap shows).length =
          (shows e).toList.length + (fs.filterMap shows).length := by
        cases h : shows e <;> simp [h, Nat.add_comm]
      rw [countP_cons_toNat, hshow]
      exact ⟨hI', by omega, by omega⟩

/-- A budget to which some events add. -/
theorem run_within_credit {step : σ → α → Option (σ × ε)} {ok : σ → α → Prop}
    [∀ s a, Decidable (ok s a)] (counts : α → Bool) (adds : ε → Bool) (left : σ → ℕ) (credit : ℕ)
    (hstep : ∀ s a t e, ok s a → step s a = some (t, e) →
      (counts a).toNat + left t ≤ left s + credit * (adds e).toNat)
    {s u : σ} {as : List α} {es : List ε} (hrun : run step ok s as = some (es, u)) :
    as.countP counts + left u ≤ left s + credit * es.countP adds := by
  induction as generalizing s es with
  | nil =>
    obtain ⟨rfl, rfl⟩ : [] = es ∧ s = u := by simpa [run] using hrun
    simp
  | cons a as ih =>
    unfold run at hrun
    split_ifs at hrun with hok
    split at hrun
    · cases hrun
    · rename_i t e ht
      obtain ⟨⟨fs, v⟩, hr, he⟩ := Option.map_eq_some_iff.mp hrun
      obtain ⟨rfl, rfl⟩ : e :: fs = es ∧ v = u := by simpa using he
      have hone := hstep s a t e hok ht
      have hrest := ih hr
      rw [countP_cons_toNat, countP_cons_toNat, Nat.mul_add]
      omega

end ConduitRuntime.Execution
