import ConduitRuntime.Foundations.Execution

/-! One machine implements another: every step of the first is answered by an execution of the
second, none, one or several of its steps, that shows an observer the same. The relation between
the states may carry invariants of both machines. -/
namespace ConduitRuntime.Execution
set_option autoImplicit false

variable {σ α ε σ' α' ε' ω : Type}

theorem Exec.one {step : σ → α → Option (σ × ε)} {ok : σ → α → Prop} {s t : σ} {a : α} {e : ε}
    (hok : ok s a) (hs : step s a = some (t, e)) : Exec step ok s [e] t :=
  Exec.nil.snoc hok hs

/-- Forward simulation over whole executions; `obs` and `obs'` say what an observer sees of an
event. -/
theorem Exec.simulate {step : σ → α → Option (σ × ε)} {ok : σ → α → Prop}
    {step' : σ' → α' → Option (σ' × ε')} {ok' : σ' → α' → Prop} (obs : ε → List ω)
    (obs' : ε' → List ω) (R : σ → σ' → Prop)
    (hstep : ∀ s t a u e, R s t → ok s a → step s a = some (u, e) →
      ∃ fs v, Exec step' ok' t fs v ∧ R u v ∧ fs.flatMap obs' = obs e)
    {s₀ s : σ} {t₀ : σ'} {es : List ε} (h : Exec step ok s₀ es s) (h₀ : R s₀ t₀) :
    ∃ fs t, Exec step' ok' t₀ fs t ∧ R s t ∧ fs.flatMap obs' = es.flatMap obs := by
  induction h with
  | nil => exact ⟨[], t₀, .nil, h₀, rfl⟩
  | snoc _ hok hs ih =>
    obtain ⟨fs, t, hexec, hR, hobs⟩ := ih
    obtain ⟨gs, v, hmore, hR', hobs'⟩ := hstep _ _ _ _ _ hR hok hs
    refine ⟨fs ++ gs, v, hexec.trans hmore, hR', ?_⟩
    simp [hobs, hobs']

/-- Step for step, with the same events. -/
theorem Exec.follow {step : σ → α → Option (σ × ε)} {ok : σ → α → Prop}
    {step' : σ' → α' → Option (σ' × ε)} {ok' : σ' → α' → Prop} (R : σ → σ' → Prop)
    (hstep : ∀ s t a u e, R s t → ok s a → step s a = some (u, e) →
      ∃ b v, ok' t b ∧ step' t b = some (v, e) ∧ R u v)
    {s₀ s : σ} {t₀ : σ'} {es : List ε} (h : Exec step ok s₀ es s) (h₀ : R s₀ t₀) :
    ∃ t, Exec step' ok' t₀ es t ∧ R s t := by
  induction h with
  | nil => exact ⟨t₀, .nil, h₀⟩
  | snoc _ hok hs ih =>
    obtain ⟨t, hexec, hR⟩ := ih
    obtain ⟨b, v, hb, hv, hR'⟩ := hstep _ _ _ _ _ hR hok hs
    exact ⟨v, hexec.snoc hb hv, hR'⟩

/-! ## A machine made of components of one kind -/

section Family
variable {ι : Type}

/-- At most one component moves, and by a step of its own; `shown` names it and its event. -/
def MovesOne (step' : σ' → α' → Option (σ' × ε')) (ok' : σ' → α' → Prop) (v v' : ι → σ') :
    Option (ι × ε') → Prop
  | none => v' = v
  | some (i, f) =>
    (∃ b, ok' (v i) b ∧ step' (v i) b = some (v' i, f)) ∧ ∀ j, j ≠ i → v' j = v j

variable [DecidableEq ι]

theorem MovesOne.update {step' : σ' → α' → Option (σ' × ε')} {ok' : σ' → α' → Prop} {v : ι → σ'}
    {i : ι} {b : α'} {c : σ'} {f : ε'} (hok : ok' (v i) b) (hs : step' (v i) b = some (c, f)) :
    MovesOne step' ok' v (Function.update v i c) (some (i, f)) := by
  refine ⟨⟨b, hok, ?_⟩, fun j hj => Function.update_of_ne hj c v⟩
  rw [Function.update_self]
  exact hs

/-- What an event shows of the component `i`. -/
def component (i : ι) : Option (ι × ε') → List ε'
  | none => []
  | some (j, f) => if j = i then [f] else []

/-- Every execution of the whole contains an execution of each component. -/
theorem Exec.component {step : σ → α → Option (σ × ε)} {ok : σ → α → Prop}
    {step' : σ' → α' → Option (σ' × ε')} {ok' : σ' → α' → Prop} (view : σ → ι → σ')
    (shown : ε → Option (ι × ε'))
    (hstep : ∀ s a u e, ok s a → step s a = some (u, e) →
      MovesOne step' ok' (view s) (view u) (shown e))
    {s₀ s : σ} {es : List ε} (h : Exec step ok s₀ es s) (i : ι) :
    Exec step' ok' (view s₀ i) (es.flatMap fun e => Execution.component i (shown e))
      (view s i) := by
  have hsim : ∃ fs c, Exec step' ok' (view s₀ i) fs c ∧ view s i = c ∧
      fs.flatMap (fun f => [f]) = es.flatMap fun e => Execution.component i (shown e) := by
    refine h.simulate (fun e => Execution.component i (shown e)) (fun f => [f])
      (fun s c => view s i = c) ?_ rfl
    rintro s c a u e rfl hok hs
    have hmove := hstep s a u e hok hs
    rcases hshown : shown e with _ | ⟨j, f⟩
    · rw [hshown] at hmove
      have hsame : view u = view s := hmove
      exact ⟨[], view s i, .nil, by rw [hsame], rfl⟩
    · rw [hshown] at hmove
      obtain ⟨⟨b, hb, hs'⟩, hother⟩ := hmove
      by_cases hj : j = i
      · subst hj
        exact ⟨[f], view u j, .one hb hs', rfl, by simp [Execution.component]⟩
      · exact ⟨[], view s i, .nil, hother i (Ne.symm hj), by simp [Execution.component, hj]⟩
  obtain ⟨fs, c, hexec, rfl, hobs⟩ := hsim
  have hfs : fs = es.flatMap fun e => Execution.component i (shown e) := by simpa using hobs
  rw [← hfs]
  exact hexec

end Family

end ConduitRuntime.Execution
