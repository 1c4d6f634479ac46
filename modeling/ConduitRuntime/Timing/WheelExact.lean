import ConduitRuntime.Timing.TimerRuns

/-! The timing wheel refines countdown timers: its buckets hold exactly the pending nodes, each in
the bucket of the tick it expires at, and a tick returns exactly the nodes with one tick left. -/
namespace ConduitRuntime.Timing
open Execution Countdown DoublyLinked LinkChain
set_option autoImplicit false

variable {c : WheelConfig} {w : Wheel} {s t : TimerSystem} {es : List (Event ℕ)} {L : ℕ → List ℕ}

/-- The longest delay a wheel can represent. -/
def WheelConfig.horizon (c : WheelConfig) : ℕ := c.slots.toNat - 1

theorem WheelConfig.horizon_pos (c : WheelConfig) : 0 < c.horizon := by
  have := c.two_le
  unfold horizon
  omega

/-! ## The invariant -/

/-- A tick of the trace returned exactly the nodes with one tick left, each once. -/
def Exact (c : WheelConfig) (es : List (Event ℕ)) : Prop :=
  ∀ pre expired post, es = pre ++ .ticked expired :: post →
    expired.Nodup ∧ ∀ n, n ∈ expired ↔ remaining c.horizon pre n = some 1

structure WheelInv (c : WheelConfig) (es : List (Event ℕ)) (s : TimerSystem) (L : ℕ → List ℕ) :
    Prop where
  linked : ∀ b, Linked s.wheel.timerNext s.wheel.timerPrev endOfList endOfList (s.wheel.buckets b)
    (L b)
  mem : ∀ b n, n ∈ L b ↔ ∃ r, remaining c.horizon es n = some r ∧ c.slotAfter s.wheel r = b
  bucket : ∀ b, ∀ n ∈ L b, s.wheel.wheelBucket n = b
  delays : ∀ n delay, Event.scheduled n delay ∈ es → 0 < delay
  below : ∀ n, remaining c.horizon es n ≠ none → n < endOfList
  waiting : ∀ n, s.status n = .waiting ↔ remaining c.horizon es n ≠ none
  idle : ∀ n, s.status n = .idle → s.wheel.wheelBucket n = endOfList
  exact : Exact c es

theorem delays_pos {es : List (Event ℕ)} {s : TimerSystem}
    (h : Exec (timerStep c) TimerOk timerInit es s) {n delay : ℕ}
    (hm : Event.scheduled n delay ∈ es) : 0 < delay := by
  induction h with
  | nil => cases hm
  | @snoc es s t a e _ hok hs ih =>
    rcases List.mem_append.mp hm with hold | hnew
    · exact ih hold
    · cases a with
      | schedule m d =>
        obtain ⟨_, rfl⟩ := Prod.mk.inj (Option.some.inj hs)
        obtain ⟨_, rfl⟩ : n = m ∧ delay = d.toNat := by simpa using hnew
        exact hok.2.1
      | cancel m =>
        obtain ⟨_, rfl⟩ := Prod.mk.inj (Option.some.inj hs)
        simp at hnew
      | tick =>
        obtain ⟨_, rfl⟩ := Prod.mk.inj (Option.some.inj hs)
        simp at hnew

/-- Without delays of 0 a timer runs for its delay, capped at the horizon. -/
theorem pending_eq_remaining (hd : ∀ n delay, Event.scheduled n delay ∈ es → 0 < delay) :
    c.pending es = remaining c.horizon es := by
  induction es using List.reverseRecOn with
  | nil => rfl
  | append_singleton es e ih =>
    have hrec := ih fun n delay hm => hd n delay (by simp [hm])
    cases e with
    | scheduled n delay =>
      have hpos := hd n delay (by simp)
      have hticks : c.ticksUntil delay = min delay c.horizon := by
        rw [WheelConfig.ticksUntil, if_neg (by omega)]
        rfl
      rw [c.pending_scheduled, remaining_snoc, after, hrec, hticks]
    | cancelled n => rw [c.pending_snoc, remaining_snoc, hrec]; rfl
    | ticked expired => rw [c.pending_snoc, remaining_snoc, hrec]; rfl

theorem exec_inv {es : List (Event ℕ)} {s : TimerSystem}
    (h : Exec (timerStep c) TimerOk timerInit es s) : ∃ L, WheelInv c es s L := by
  obtain ⟨L, hrun⟩ := exec_runInv (h.mono fun _ _ => TimerOk.current)
  have hdelays : ∀ n delay, Event.scheduled n delay ∈ es → 0 < delay :=
    fun _ _ hm => delays_pos h hm
  have heq := pending_eq_remaining (c := c) hdelays
  have hkept := hrun.kept
  have hwaiting := hrun.waiting
  rw [heq] at hkept hwaiting
  refine ⟨L, hkept.linked, hkept.mem, hkept.bucket, hdelays, hkept.below, hwaiting, hrun.idle, ?_⟩
  intro pre expired post hsplit
  rw [← pending_eq_remaining fun n delay hm => hdelays n delay (by simp [hsplit, hm])]
  exact hrun.returns pre expired post hsplit

theorem WheelInv.expired_eq (h : WheelInv c es s L) :
    walk (c.tick s.wheel).1.timerNext endOfList (c.tick s.wheel).2 = L (c.slotAfter s.wheel 1) := by
  have hkept : Kept c (remaining c.horizon es) s.wheel L := by
    refine ⟨h.linked, h.mem, h.bucket, fun n r hr => ?_, h.below⟩
    have hrange := remaining_range c.horizon_pos h.delays hr
    unfold WheelConfig.horizon at hrange
    omega
  exact hkept.expired_eq

/-! ## Exactness -/

theorem Exact.count (h : Exact c es) {pre post : List (Event ℕ)} {expired : List ℕ}
    (heq : es = pre ++ .ticked expired :: post) (n : ℕ) :
    expired.count n = if remaining c.horizon pre n = some 1 then 1 else 0 := by
  obtain ⟨hnodup, hmem⟩ := h pre expired post heq
  rw [hnodup.count]
  exact if_congr (hmem n) rfl rfl

/-- After `schedule(n, d)` and until the next call about `n`, the timer is due at the tick number
`min(d, W-1)` and at no other. -/
theorem due_iff (pre mid : List (Event ℕ)) (n : ℕ) {d : ℕ} (hd : 0 < d)
    (hmid : ∀ e ∈ mid, e.target ≠ some n) :
    remaining c.horizon (pre ++ .scheduled n d :: mid) n = some 1 ↔
      ticks mid + 1 = min d c.horizon := by
  have hpos := c.horizon_pos
  have hstart : after c.horizon (remaining c.horizon pre) (.scheduled n d) n =
      some (min d c.horizon) := Function.update_self ..
  have hrem : remaining c.horizon (pre ++ .scheduled n d :: mid) n =
      if min d c.horizon ≤ ticks mid then none else some (min d c.horizon - ticks mid) := by
    rw [remaining, List.foldl_append, List.foldl_cons]
    exact foldl_untouched hmid (by omega) hstart
  rw [hrem]
  split_ifs with hle
  · simp only [false_iff]
    omega
  · rw [Option.some.injEq]
    omega

theorem not_due_of_unscheduled {pre mid : List (Event ℕ)} {n : ℕ}
    (hpre : pre = [] ∨ ∃ pre', pre = pre' ++ [.cancelled n])
    (hmid : ∀ d, Event.scheduled n d ∉ mid) : remaining c.horizon (pre ++ mid) n = none := by
  have hsplit : remaining c.horizon (pre ++ mid) =
      mid.foldl (after c.horizon) (remaining c.horizon pre) := List.foldl_append
  rw [hsplit]
  refine foldl_unscheduled hmid ?_
  rcases hpre with rfl | ⟨pre', rfl⟩
  · rfl
  · rw [remaining_snoc, after, Function.update_self]

/-- In every run that keeps the callers' discipline the buckets are well-formed lists of exactly
the waiting nodes, each tick returns the head of its expired list, and each list has every node
whose delay, capped at `W - 1`, ends at that tick, once, and no other node. -/
theorem wheel_exact (c : WheelConfig) {es : List (Event ℕ)} {s : TimerSystem}
    (h : Exec (timerStep c) TimerOk timerInit es s) :
    (∃ L : ℕ → List ℕ,
      (∀ b < c.slots.toNat, Linked s.wheel.timerNext s.wheel.timerPrev endOfList endOfList
        (s.wheel.buckets b) (L b) ∧ ∀ n ∈ L b, s.wheel.wheelBucket n = b) ∧
      ∀ n, s.status n = .waiting ↔ ∃ b < c.slots.toNat, n ∈ L b) ∧
    (∀ t expired, timerStep c s .tick = some (t, .ticked expired) →
      Chain t.wheel.timerNext endOfList (c.tick s.wheel).2 expired) ∧
    (∀ pre n d mid expired post, es = pre ++ .scheduled n d :: (mid ++ .ticked expired :: post) →
      (∀ e ∈ mid, e.target ≠ some n) →
      expired.count n = if ticks mid + 1 = min d (c.slots.toNat - 1) then 1 else 0) ∧
    ∀ pre n mid expired post, es = pre ++ mid ++ .ticked expired :: post →
      (pre = [] ∨ ∃ pre', pre = pre' ++ [.cancelled n]) → (∀ d, Event.scheduled n d ∉ mid) →
      n ∉ expired := by
  obtain ⟨L, hinv⟩ := exec_inv h
  refine ⟨⟨L, fun b _ => ⟨hinv.linked b, hinv.bucket b⟩, fun n => ?_⟩, ?_, ?_, ?_⟩
  · rw [hinv.waiting, Option.ne_none_iff_exists']
    constructor
    · rintro ⟨r, hr⟩
      have hslots : 0 < c.slots.toNat := by have := c.two_le; omega
      exact ⟨_, Nat.mod_lt _ hslots, (hinv.mem _ n).mpr ⟨r, hr, rfl⟩⟩
    · rintro ⟨b, _, hb⟩
      obtain ⟨r, hr, _⟩ := (hinv.mem b n).mp hb
      exact ⟨r, hr⟩
  · intro t expired hstep
    obtain ⟨rfl, he⟩ := Prod.mk.inj (Option.some.inj hstep)
    injection he with he
    have hlist : expired = L (c.slotAfter s.wheel 1) := he.symm.trans hinv.expired_eq
    have hl := (hinv.linked (c.slotAfter s.wheel 1)).chain
    rw [hlist, tick_eq rfl]
    exact hl
  · intro pre n d mid expired post heq hmid
    have hd : 0 < d := hinv.delays n d (by simp [heq])
    have hsplit : es = (pre ++ .scheduled n d :: mid) ++ .ticked expired :: post := by simp [heq]
    rw [hinv.exact.count hsplit n]
    exact if_congr (due_iff pre mid n hd hmid) rfl rfl
  · intro pre n mid expired post heq hpre hmid hn
    have hdue := ((hinv.exact _ expired post heq).2 n).mp hn
    rw [not_due_of_unscheduled hpre hmid] at hdue
    cases hdue

/-- Two nodes share a bucket, one of them is cancelled, and a third node's delay exceeds the
wheel. -/
theorem wheel_exact_four_slots :
    ∃ es s, Exec (timerStep fourSlots) TimerOk timerInit es s ∧
      es = [.scheduled 5 2, .scheduled 6 9, .scheduled 7 2, .cancelled 5, .ticked [], .ticked [7],
        .ticked [6]] ∧
      [6].count 6 = if ticks [Event.scheduled 7 2, .cancelled 5, .ticked [], .ticked [7]] + 1 =
        min 9 (fourSlots.slots.toNat - 1) then 1 else 0 := by
  have h := exec_of_run (show run (timerStep fourSlots) TimerOk timerInit
    [.schedule 5 2, .schedule 6 9, .schedule 7 2, .cancel 5, .tick, .tick, .tick] = some
      ([.scheduled 5 2, .scheduled 6 9, .scheduled 7 2, .cancelled 5, .ticked [], .ticked [7],
        .ticked [6]], _) from rfl)
  exact ⟨_, _, h, rfl, (wheel_exact fourSlots h).2.2.1 [.scheduled 5 2] 6 9
    [.scheduled 7 2, .cancelled 5, .ticked [], .ticked [7]] [6] [] rfl (by decide)⟩

end ConduitRuntime.Timing
