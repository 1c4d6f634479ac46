import ConduitRuntime.Timing.TimerRuns

/-! The order in which two timers scheduled at the same tick are returned. A delay is capped at the
last bucket and then reduced to a bucket number, so a longer delay never comes first, with one
exception: a delay of 0 names the bucket the clock has just left and waits for a whole turn. -/
namespace ConduitRuntime.Timing
open Execution Countdown
set_option autoImplicit false

variable {c : WheelConfig} {s : TimerSystem} {es : List (Event ℕ)}

/-! ## When a timer is returned -/

/-- What the trace of a run says about itself: each tick returned the nodes that were due, and only
nodes that were not pending were scheduled. -/
structure TraceExact (c : WheelConfig) (es : List (Event ℕ)) : Prop where
  returns : ReturnsDue c.pending es
  free : ∀ pre n delay post, es = pre ++ .scheduled n delay :: post → c.pending pre n = none

theorem exec_traceExact (h : Exec (timerStep c) CurrentCancel timerInit es s) :
    TraceExact c es := by
  induction h with
  | nil => exact ⟨runInv_init.returns, fun pre n delay post heq => by simp at heq⟩
  | @snoc es s t a e h hok hs ih =>
    obtain ⟨L, hinv⟩ := exec_runInv h
    obtain ⟨L', hinv'⟩ := hinv.step hok hs
    refine ⟨hinv'.returns, fun pre n delay post heq => ?_⟩
    rcases List.eq_nil_or_concat post with rfl | ⟨post, e', rfl⟩
    · obtain ⟨rfl, hlast⟩ := List.append_inj' heq rfl
      cases a with
      | schedule m d =>
        obtain ⟨_, rfl⟩ := Prod.mk.inj (Option.some.inj hs)
        obtain ⟨rfl, _⟩ : m = n ∧ d.toNat = delay := by simpa using hlast
        exact hinv.free hok.1.2
      | cancel m =>
        obtain ⟨_, rfl⟩ := Prod.mk.inj (Option.some.inj hs)
        simp at hlast
      | tick =>
        obtain ⟨_, rfl⟩ := Prod.mk.inj (Option.some.inj hs)
        simp at hlast
    · have heq' : es ++ [e] = (pre ++ .scheduled n delay :: post) ++ [e'] := by simpa using heq
      exact ih.free pre n delay post (List.append_inj' heq' rfl).1

/-- Before its time a timer that is not cancelled is counted down and not returned. -/
theorem TraceExact.waits (h : TraceExact c es) {pre seg rest : List (Event ℕ)} {n delay : ℕ}
    (heq : es = pre ++ .scheduled n delay :: (seg ++ rest))
    (hcancel : Event.cancelled n ∉ seg) (hearly : ticks seg < c.ticksUntil delay) :
    c.pending (pre ++ .scheduled n delay :: seg) n = some (c.ticksUntil delay - ticks seg) ∧
      ∀ l, Event.ticked l ∈ seg → n ∉ l := by
  induction seg using List.reverseRecOn generalizing rest with
  | nil =>
    refine ⟨?_, fun l hl => by cases hl⟩
    rw [c.pending_scheduled, Function.update_self]
    rfl
  | append_singleton seg e ih =>
    have hsplit : es = pre ++ .scheduled n delay :: (seg ++ e :: rest) := by simpa using heq
    have hbefore : es = (pre ++ .scheduled n delay :: seg) ++ e :: rest := by simp [hsplit]
    have hsnoc : pre ++ Event.scheduled n delay :: (seg ++ [e]) =
        (pre ++ .scheduled n delay :: seg) ++ [e] := by simp
    have hle : ticks seg ≤ ticks (seg ++ [e]) := by
      rw [ticks_append]
      omega
    obtain ⟨hpending, hearlier⟩ := ih hsplit (fun hm => hcancel (by simp [hm])) (by omega)
    rw [hsnoc, c.pending_snoc]
    cases e with
    | scheduled m delay' =>
      have hmn : m ≠ n := by
        rintro rfl
        rw [h.free _ m delay' rest hbefore] at hpending
        cases hpending
      have htarget : (Event.scheduled m (c.ticksUntil delay')).target = some m := rfl
      rw [ticks_snoc_of_target rfl]
      refine ⟨(after_of_target_ne htarget hmn).trans hpending, fun l hl => hearlier l ?_⟩
      simpa using hl
    | cancelled m =>
      have hmn : m ≠ n := by
        rintro rfl
        exact hcancel (by simp)
      have htarget : (Event.cancelled m).target = some m := rfl
      rw [ticks_snoc_of_target rfl]
      refine ⟨(after_of_target_ne htarget hmn).trans hpending, fun l hl => hearlier l ?_⟩
      simpa using hl
    | ticked expired =>
      rw [ticks_snoc_ticked] at hearly ⊢
      refine ⟨(after_ticked_iff _ expired n _).mpr ⟨by omega, ?_⟩, fun l hl => ?_⟩
      · rw [hpending]
        congr 1
        omega
      · rcases List.mem_append.mp hl with hold | hnew
        · exact hearlier l hold
        · intro hn
          obtain rfl : l = expired := by simpa using hnew
          have hdue := ((h.returns _ l rest hbefore).2 n).mp hn
          have hone := Option.some.inj (hpending.symm.trans hdue)
          omega

/-- At its time it is returned. -/
theorem TraceExact.returned (h : TraceExact c es) {pre seg rest : List (Event ℕ)} {n delay : ℕ}
    (heq : es = pre ++ .scheduled n delay :: (seg ++ rest))
    (hcancel : Event.cancelled n ∉ seg) (htime : c.ticksUntil delay ≤ ticks seg) :
    ∃ seg₁ l seg₂, seg = seg₁ ++ .ticked l :: seg₂ ∧ ticks seg₁ + 1 = c.ticksUntil delay ∧
      n ∈ l := by
  have hpos := (c.ticksUntil_range delay).1
  obtain ⟨seg₁, l, seg₂, rfl, hcount⟩ := exists_tick hpos htime
  have hsplit : es = pre ++ .scheduled n delay :: (seg₁ ++ (.ticked l :: (seg₂ ++ rest))) := by
    simp [heq]
  obtain ⟨hpending, _⟩ := h.waits hsplit (fun hm => hcancel (by simp [hm])) (by omega)
  have hbefore : es = (pre ++ .scheduled n delay :: seg₁) ++ .ticked l :: (seg₂ ++ rest) := by
    simp [heq]
  refine ⟨seg₁, l, seg₂, rfl, hcount, ((h.returns _ l _ hbefore).2 n).mpr ?_⟩
  rw [hpending]
  congr 1
  omega

/-! ## Two timers -/

/-- Whenever `x` was scheduled with the delay `d₁` and `y` with `d₂`, at the same tick and neither
cancelled since, a tick that returns `y` returns `x` too, or an earlier one did. -/
def InOrder (d₁ d₂ : ℕ) (es : List (Event ℕ)) : Prop :=
  ∀ x y preX segX preY segY expired rest, x ≠ y →
    es = preX ++ .scheduled x d₁ :: (segX ++ .ticked expired :: rest) →
    es = preY ++ .scheduled y d₂ :: (segY ++ .ticked expired :: rest) →
    ticks preX = ticks preY → Event.cancelled x ∉ segX → Event.cancelled y ∉ segY →
    y ∈ expired → ∃ l, Event.ticked l ∈ segX ++ [.ticked expired] ∧ x ∈ l

theorem WheelConfig.ticksUntil_mono (c : WheelConfig) {d₁ d₂ : ℕ} (hle : d₁ ≤ d₂)
    (hzero : d₁ = 0 → d₂ = 0) : c.ticksUntil d₁ ≤ c.ticksUntil d₂ := by
  unfold ticksUntil
  split_ifs <;> omega

theorem ticks_split (pre seg rest : List (Event ℕ)) (n delay : ℕ) :
    ticks (pre ++ .scheduled n delay :: (seg ++ rest)) = ticks pre + ticks seg + ticks rest := by
  have hcons : ticks (Event.scheduled n delay :: (seg ++ rest)) = ticks (seg ++ rest) := by
    simp [ticks, Event.target]
  rw [ticks_append, hcons, ticks_append, Nat.add_assoc]

theorem TraceExact.inOrder (h : TraceExact c es) {d₁ d₂ : ℕ}
    (hle : c.ticksUntil d₁ ≤ c.ticksUntil d₂) : InOrder d₁ d₂ es := by
  intro x y preX segX preY segY expired rest _ hx hy hsame hcx hcy hreturned
  have hticks : ticks segX = ticks segY := by
    have htotal := congrArg ticks (hx.symm.trans hy)
    rw [ticks_split, ticks_split] at htotal
    omega
  -- the second timer's time has come
  have htime : c.ticksUntil d₂ ≤ ticks (segY ++ [.ticked expired]) := by
    by_contra hearly
    have hy' : es = preY ++ .scheduled y d₂ :: ((segY ++ [.ticked expired]) ++ rest) := by
      simp [hy]
    exact (h.waits hy' (by simpa using hcy) (by omega)).2 expired (by simp) hreturned
  have hx' : es = preX ++ .scheduled x d₁ :: ((segX ++ [.ticked expired]) ++ rest) := by
    simp [hx]
  rw [ticks_snoc_ticked] at htime
  obtain ⟨seg₁, l, seg₂, hsplit, _, hmem⟩ := h.returned hx' (by simpa using hcx)
    (by rw [ticks_snoc_ticked]; omega)
  exact ⟨l, by simp [hsplit], hmem⟩

/-- The clock can always go on. -/
theorem exec_ticks (h : Exec (timerStep c) CurrentCancel timerInit es s) (k : ℕ) :
    ∃ fs t, Exec (timerStep c) CurrentCancel timerInit (es ++ fs) t ∧ ticks fs = k ∧
      ∀ n, Event.cancelled n ∉ fs := by
  induction k with
  | zero => exact ⟨[], s, by simpa using h, rfl, fun n hn => by cases hn⟩
  | succ k ih =>
    obtain ⟨fs, t, ht, hfs, hnone⟩ := ih
    have hok : CurrentCancel t .tick := ⟨trivial, fun _ he => by cases he⟩
    have hnext := ht.snoc hok rfl
    rw [List.append_assoc] at hnext
    refine ⟨_, _, hnext, ?_, fun n hn => ?_⟩
    · rw [ticks_snoc_ticked, hfs]
    · rcases List.mem_append.mp hn with hold | hlast
      · exact hnone n hold
      · simp at hlast

theorem exec_two (c : WheelConfig) (d₁ d₂ : BitVec 32) :
    ∃ s, Exec (timerStep c) CurrentCancel timerInit
      [.scheduled 0 d₁.toNat, .scheduled 1 d₂.toNat] s := by
  have h1 := exec_of_run (show run (timerStep c) CurrentCancel timerInit [.schedule 0 d₁] =
    some ([.scheduled 0 d₁.toNat], _) from rfl)
  have hok : CurrentCancel ⟨c.schedule timerInit.wheel 0 d₁,
      Function.update timerInit.status 0 .waiting⟩ (.schedule 1 d₂) :=
    ⟨⟨by decide, by simp [timerInit]⟩, fun _ he => by cases he⟩
  exact ⟨_, h1.snoc hok rfl⟩

/-- A delay of 0 next to a positive one: the positive one is returned first. -/
theorem zero_not_inOrder (c : WheelConfig) {d : BitVec 32} (hd : d ≠ 0) :
    ∃ es s, Exec (timerStep c) CurrentCancel timerInit es s ∧ ¬ InOrder 0 d.toNat es := by
  obtain ⟨s, h2⟩ := exec_two c 0 d
  obtain ⟨fs, t, ht, hfs, hnone⟩ := exec_ticks h2 (c.ticksUntil d.toNat)
  have hexact := exec_traceExact ht
  have hy : [Event.scheduled 0 (0#32).toNat, .scheduled 1 d.toNat] ++ fs =
      [.scheduled 0 0] ++ .scheduled 1 d.toNat :: (fs ++ []) := by
    simp
  obtain ⟨seg, l, rest, rfl, hcount, hmem⟩ := hexact.returned hy (hnone 1) hfs.ge
  have hfew : ∀ n, Event.cancelled n ∉ seg := fun n hm => hnone n (by simp [hm])
  refine ⟨_, t, ht, fun horder => ?_⟩
  obtain ⟨l', hl', hzero⟩ := horder 0 1 [] (.scheduled 1 d.toNat :: seg) [.scheduled 0 0] seg l rest
    (by decide) (by simp) (by simp) rfl (by simp [hfew]) (hfew 1) hmem
  have hx : [Event.scheduled 0 (0#32).toNat, .scheduled 1 d.toNat] ++ (seg ++ .ticked l :: rest) =
      [] ++ .scheduled 0 0 :: ((.scheduled 1 d.toNat :: seg ++ [.ticked l]) ++ rest) := by
    simp
  have hpos : d.toNat ≠ 0 := fun h => hd (BitVec.eq_of_toNat_eq h)
  have hearly : ticks (Event.scheduled 1 d.toNat :: seg ++ [.ticked l]) < c.ticksUntil 0 := by
    have htwo := c.two_le
    have hcons : ticks (Event.scheduled 1 d.toNat :: seg) = ticks seg := by
      simp [ticks, Event.target]
    rw [ticks_snoc_ticked, hcons, hcount]
    unfold WheelConfig.ticksUntil
    rw [if_neg hpos, if_pos rfl]
    omega
  exact (hexact.waits hx (by simp [hfew]) hearly).2 l' hl' hzero

/-- For delays `d₁ ≤ d₂`: the first timer is returned no later than the second in all runs whose
cancels of returned nodes find current links, if and only if `d₁` is not 0 or both are. -/
theorem delays_monotone_iff (c : WheelConfig) (d₁ d₂ : BitVec 32) (hle : d₁ ≤ d₂) :
    (∀ es s, Exec (timerStep c) CurrentCancel timerInit es s → InOrder d₁.toNat d₂.toNat es) ↔
      (d₁ = 0 → d₂ = 0) := by
  constructor
  · intro hall hzero
    subst hzero
    by_contra hd
    obtain ⟨es, s, h, hnot⟩ := zero_not_inOrder c hd
    exact hnot (hall es s h)
  · intro hzero es s h
    refine (exec_traceExact h).inOrder (c.ticksUntil_mono (BitVec.le_def.mp hle) fun hd => ?_)
    rw [hzero (BitVec.eq_of_toNat_eq hd)]
    rfl

/-- Delay 9 is capped to the three ticks of delay 3. -/
theorem delays_monotone_iff_capped :
    ∃ es s, Exec (timerStep fourSlots) CurrentCancel timerInit es s ∧
      es = [.scheduled 6 9, .scheduled 5 3, .ticked [], .ticked [], .ticked [5, 6]] ∧
      InOrder (3#32).toNat (9#32).toNat es := by
  have h := exec_of_run (show run (timerStep fourSlots) CurrentCancel timerInit
    [.schedule 6 9, .schedule 5 3, .tick, .tick, .tick] =
      some ([.scheduled 6 9, .scheduled 5 3, .ticked [], .ticked [], .ticked [5, 6]], _) from rfl)
  have horder := (delays_monotone_iff fourSlots 3 9 (by decide)).mpr (by decide)
  exact ⟨_, _, h, rfl, horder _ _ h⟩

/-- Delay 0 next to delay 1: the first tick returns the second timer and not the first. And with
positive delays a late cancel of another node can remove the first timer, which is then never
returned. -/
theorem zero_delay_comes_last :
    (∃ es s, Exec (timerStep fourSlots) AnyCancel timerInit es s ∧
      es = [.scheduled 5 0, .scheduled 6 1, .ticked [6]] ∧ ¬ InOrder 0 1 es) ∧
    ∃ es s, Exec (timerStep fourSlots) AnyCancel timerInit es s ∧
      es = [.scheduled 7 1, .ticked [7], .ticked [], .ticked [], .scheduled 5 2, .scheduled 6 3,
        .cancelled 7, .ticked [], .ticked [], .ticked [6]] ∧ ¬ InOrder 2 3 es := by
  constructor
  · have h := exec_of_run (show run (timerStep fourSlots) AnyCancel timerInit
      [.schedule 5 0, .schedule 6 1, .tick] =
        some ([.scheduled 5 0, .scheduled 6 1, .ticked [6]], _) from rfl)
    refine ⟨_, _, h, rfl, fun horder => ?_⟩
    obtain ⟨l, hl, hmem⟩ :=
      horder 5 6 [] [.scheduled 6 1] [.scheduled 5 0] [] [6] [] (by decide) rfl
      rfl rfl (by decide) (by decide) (by decide)
    obtain rfl : l = [6] := by simpa using hl
    simp at hmem
  · have h := exec_of_run (show run (timerStep fourSlots) AnyCancel timerInit
      [.schedule 7 1, .tick, .tick, .tick, .schedule 5 2, .schedule 6 3, .cancel 7, .tick, .tick,
        .tick] =
        some ([.scheduled 7 1, .ticked [7], .ticked [], .ticked [], .scheduled 5 2, .scheduled 6 3,
          .cancelled 7, .ticked [], .ticked [], .ticked [6]], _) from rfl)
    refine ⟨_, _, h, rfl, fun horder => ?_⟩
    obtain ⟨l, hl, hmem⟩ := horder 5 6 [.scheduled 7 1, .ticked [7], .ticked [], .ticked []]
      [.scheduled 6 3, .cancelled 7, .ticked [], .ticked []]
      [.scheduled 7 1, .ticked [7], .ticked [], .ticked [], .scheduled 5 2]
      [.cancelled 7, .ticked [], .ticked []] [6] [] (by decide) rfl rfl rfl (by decide) (by decide)
      (by decide)
    obtain rfl | rfl : l = [] ∨ l = [6] := by simpa using hl
    · cases hmem
    · simp at hmem

end ConduitRuntime.Timing
