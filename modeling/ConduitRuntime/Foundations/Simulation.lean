import ConduitRuntime.Foundations.Budget

/-! Total machines that answer every call, and two of them that cannot be told apart. -/
namespace ConduitRuntime.Simulation
set_option autoImplicit false

variable {σ σ' α ο : Type}

/-- The state after the calls `as`, and the answers given, oldest first. -/
def calls (step : σ → α → σ × ο) : σ → List α → σ × List ο
  | s, [] => (s, [])
  | s, a :: as =>
    let (t, o) := step s a
    let (u, os) := calls step t as
    (u, o :: os)

theorem calls_append (step : σ → α → σ × ο) (s : σ) (as bs : List α) :
    calls step s (as ++ bs) =
      ((calls step (calls step s as).1 bs).1,
        (calls step s as).2 ++ (calls step (calls step s as).1 bs).2) := by
  induction as generalizing s with
  | nil => rfl
  | cons a as ih => simp only [List.cons_append, calls, ih]

/-- A machine whose impossible calls change nothing; `answer` is what the caller sees. -/
def attempt (step : σ → α → Option σ) (answer : σ → α → ο) (s : σ) (a : α) : σ × ο :=
  ((step s a).getD s, answer s a)

/-- Every call finds a state that meets `P` with it. -/
def Throughout (step : σ → α → σ × ο) (P : σ → α → Prop) : σ → List α → Prop
  | _, [] => True
  | s, a :: as => P s a ∧ Throughout step P (step s a).1 as

/-- A relation kept by every call, under which the answers agree. -/
structure Bisimulates (step : σ → α → σ × ο) (step' : σ' → α → σ' × ο) (R : σ → σ' → Prop) :
    Prop where
  answer : ∀ s t a, R s t → (step s a).2 = (step' t a).2
  related : ∀ s t a, R s t → R (step s a).1 (step' t a).1

theorem Bisimulates.calls {step : σ → α → σ × ο} {step' : σ' → α → σ' × ο} {R : σ → σ' → Prop}
    (h : Bisimulates step step' R) {s : σ} {t : σ'} (hst : R s t) (as : List α) :
    (Simulation.calls step s as).2 = (Simulation.calls step' t as).2 ∧
      R (Simulation.calls step s as).1 (Simulation.calls step' t as).1 := by
  induction as generalizing s t with
  | nil => exact ⟨rfl, hst⟩
  | cons a as ih =>
    obtain ⟨ho, hr⟩ := ih (h.related s t a hst)
    refine ⟨?_, hr⟩
    simp only [Simulation.calls]
    rw [h.answer s t a hst, ho]

/-- Two machines that branch on the same condition. -/
theorem both_ite {R : σ → σ' → Prop} {c c' : Prop} [Decidable c] [Decidable c'] (hc : c ↔ c')
    {a b : σ} {a' b' : σ'} (hpos : c → R a a') (hneg : ¬ c → R b b') :
    R (if c then a else b) (if c' then a' else b') := by
  by_cases h : c
  · rw [if_pos h, if_pos (hc.mp h)]
    exact hpos h
  · rw [if_neg h, if_neg (fun h' => h (hc.mpr h'))]
    exact hneg h

theorem Bisimulates.attempt {step : σ → α → Option σ} {step' : σ' → α → Option σ'}
    {answer : σ → α → ο} {answer' : σ' → α → ο} {R : σ → σ' → Prop}
    (hanswer : ∀ s t a, R s t → answer s a = answer' t a)
    (hstep : ∀ s t a, R s t → Option.Rel R (step s a) (step' t a)) :
    Bisimulates (Simulation.attempt step answer) (Simulation.attempt step' answer') R where
  answer := hanswer
  related := by
    intro s t a hst
    have hrel := hstep s t a hst
    show R ((step s a).getD s) ((step' t a).getD t)
    generalize step s a = o, step' t a = o' at hrel ⊢
    -- a call is possible in both machines or in neither
    cases hrel with
    | none => exact hst
    | some h => exact h

theorem Throughout.of_forall {step : σ → α → σ × ο} {P : σ → α → Prop} (h : ∀ s a, P s a) (s : σ)
    (as : List α) : Throughout step P s as := by
  induction as generalizing s with
  | nil => trivial
  | cons a as ih => exact ⟨h s a, ih (step s a).1⟩

/-- What every call keeps, and what follows from it at each of them. -/
theorem Throughout.imp {step : σ → α → σ × ο} {P Q : σ → α → Prop} (I : σ → Prop)
    (h : ∀ s a, I s → P s a → Q s a ∧ I (step s a).1) {s : σ} (hs : I s) {as : List α}
    (hP : Throughout step P s as) : Throughout step Q s as := by
  induction as generalizing s with
  | nil => trivial
  | cons a as ih =>
    obtain ⟨hQ, hI⟩ := h s a hs hP.1
    exact ⟨hQ, ih hI hP.2⟩

/-- A ranking argument: as long as no call serves, every counted call brings the state nearer and
no other call takes it further away, so one of the first `dist s + 1` counted calls serves. -/
theorem served_within {step : σ → α → σ × ο} {P : σ → α → Prop} (W : σ → Prop)
    (Serves : σ → α → Prop) (counted : α → Bool) (dist : σ → ℕ)
    (hkeep : ∀ s a, W s → P s a → ¬ Serves s a →
      W (step s a).1 ∧ dist (step s a).1 + (counted a).toNat ≤ dist s)
    {as : List α} {s : σ} (hW : W s) (hP : Throughout step P s as)
    (hlong : dist s < as.countP counted) :
    ∃ pre a post, as = pre ++ a :: post ∧ pre.countP counted ≤ dist s ∧
      W (calls step s pre).1 ∧ P (calls step s pre).1 a ∧ Serves (calls step s pre).1 a := by
  induction as generalizing s with
  | nil => simp at hlong
  | cons a as ih =>
    by_cases hserves : Serves s a
    · exact ⟨[], a, as, rfl, Nat.zero_le _, hW, hP.1, hserves⟩
    · obtain ⟨hW', hdist⟩ := hkeep s a hW hP.1 hserves
      rw [Execution.countP_cons_toNat] at hlong
      obtain ⟨pre, b, post, rfl, hpre, hrest⟩ := ih hW' hP.2 (by omega)
      refine ⟨a :: pre, b, post, rfl, ?_, hrest⟩
      rw [Execution.countP_cons_toNat]
      omega

end ConduitRuntime.Simulation
