import Mathlib.Algebra.Order.Ring.Int
import Mathlib.Data.List.Basic
import Mathlib.Tactic.Common

/-! `clock_node::run`: the loop that turns readings of the steady clock into tick events. The wall
clock is read once, the reference `last_tick` moves with every tick, and both the timestamp and the
delta of a tick are taken from the time since that reference. -/
namespace ConduitRuntime.Timing
set_option autoImplicit false

/-- `perMs` steps of the clocks make a millisecond. -/
structure ClockNode where
  perMs : ℤ
  perMs_pos : 0 < perMs
  resolutionMs : UInt32

/-- `domain_.make` gives no event; the conduit rejects the event; the conduit takes it. -/
inductive TickOutcome
  | exhausted
  | rejected
  | accepted
  deriving DecidableEq

/-- One round of the loop: the reading `now`, and what domain and conduit do should it tick. -/
structure Reading where
  now : ℤ
  outcome : TickOutcome

/-- The values a tick computes; with outcome `exhausted` there is no event to carry them. -/
structure Tick where
  now : ℤ
  outcome : TickOutcome
  timestampMs : ℤ
  deltaMs : ℤ
  deriving DecidableEq

namespace ClockNode
variable (c : ClockNode)

/-- `duration_cast<milliseconds>`, which truncates. -/
def ms (d : ℤ) : ℤ := d.tdiv c.perMs

def tickAt (absoluteStart lastTick : ℤ) (r : Reading) : Tick where
  now := r.now
  outcome := r.outcome
  timestampMs := c.ms (absoluteStart + (r.now - lastTick))
  deltaMs := c.ms (r.now - lastTick)

/-- The loop, for as many rounds as `is_running_` stays set. -/
def loop (absoluteStart : ℤ) : ℤ → List Reading → List Tick
  | _, [] => []
  | lastTick, r :: rest =>
    let elapsed := c.ms (r.now - lastTick)
    if (c.resolutionMs.toNat : ℤ) ≤ elapsed then
      c.tickAt absoluteStart lastTick r :: loop absoluteStart r.now rest
    else loop absoluteStart lastTick rest

/-- `start` is the first reading of the steady clock, `absoluteStart` that of the wall clock. -/
def run (start absoluteStart : ℤ) (readings : List Reading) : List Tick :=
  c.loop absoluteStart start readings

end ClockNode

/-- The steady clock does not run backwards. -/
def Steady (start : ℤ) (readings : List Reading) : Prop :=
  (start :: readings.map Reading.now).Pairwise (· ≤ ·)

namespace Tick

/-- There was an event for the tick. -/
def Produced (t : Tick) : Prop := t.outcome ≠ .exhausted

instance : DecidablePred Produced := fun t => inferInstanceAs (Decidable (t.outcome ≠ .exhausted))

/-- The target conduit took the event. -/
def Accepted (t : Tick) : Prop := t.outcome = .accepted

instance : DecidablePred Accepted := fun t => inferInstanceAs (Decidable (t.outcome = .accepted))

end Tick

/-- The reading of the last tick of the list, or `start`. -/
def lastReading : ℤ → List Tick → ℤ
  | start, [] => start
  | _, t :: rest => lastReading t.now rest

theorem lastReading_append (start : ℤ) (pre ticks : List Tick) :
    lastReading start (pre ++ ticks) = lastReading (lastReading start pre) ticks := by
  induction pre generalizing start with
  | nil => rfl
  | cons t pre ih => exact ih t.now

/-! ## Whole milliseconds -/

namespace ClockNode
variable (c : ClockNode)

theorem ms_mono {x y : ℤ} (h : x ≤ y) : c.ms x ≤ c.ms y := Int.tdiv_le_tdiv c.perMs_pos h

theorem perMs_le_of_ms_pos {x : ℤ} (h : 1 ≤ c.ms x) : c.perMs ≤ x := by
  by_contra hlt
  have hmono : c.ms x ≤ c.ms (c.perMs - 1) := c.ms_mono (by omega)
  have hzero : c.ms (c.perMs - 1) = 0 := by
    have := c.perMs_pos
    exact Int.tdiv_eq_zero_of_lt (by omega) (by omega)
  omega

/-- A millisecond more is a millisecond more, from zero on. -/
theorem ms_lt_ms {x y : ℤ} (hx : 0 ≤ x) (h : x + c.perMs ≤ y) : c.ms x < c.ms y := by
  have hpos := c.perMs_pos
  have hstep : c.ms (x + c.perMs) = c.ms x + 1 := by
    unfold ms
    rw [Int.tdiv_eq_ediv_of_nonneg hx, Int.tdiv_eq_ediv_of_nonneg (by omega),
      Int.add_ediv_of_dvd_right (Int.dvd_refl _), Int.ediv_self (by omega)]
  have := c.ms_mono h
  omega

/-! ## What every run keeps -/

/-- Each tick takes its values from the reading of the tick before it, and comes no earlier than the
resolution after it. -/
def Ticked (absoluteStart : ℤ) : ℤ → List Tick → Prop
  | _, [] => True
  | last, t :: rest =>
    t.timestampMs = c.ms (absoluteStart + (t.now - last)) ∧ t.deltaMs = c.ms (t.now - last) ∧
      (c.resolutionMs.toNat : ℤ) ≤ c.ms (t.now - last) ∧ last ≤ t.now ∧
      Ticked absoluteStart t.now rest

end ClockNode

namespace Steady
variable {start : ℤ} {r : Reading} {rest : List Reading}

theorem le_head (h : Steady start (r :: rest)) : start ≤ r.now :=
  (List.pairwise_cons.mp h).1 r.now (by simp)

theorem from_head (h : Steady start (r :: rest)) : Steady r.now rest :=
  (List.pairwise_cons.mp h).2

theorem skip_head (h : Steady start (r :: rest)) : Steady start rest := by
  obtain ⟨hall, hrest⟩ := List.pairwise_cons.mp h
  refine List.pairwise_cons.mpr ⟨fun x hx => hall x ?_, (List.pairwise_cons.mp hrest).2⟩
  exact List.mem_cons_of_mem _ hx

end Steady

namespace ClockNode
variable {c : ClockNode} {absoluteStart start : ℤ} {ticks pre suf : List Tick} {t : Tick}

theorem loop_ticked (c : ClockNode) (absoluteStart : ℤ) {last : ℤ} {readings : List Reading}
    (h : Steady last readings) :
    c.Ticked absoluteStart last (c.loop absoluteStart last readings) := by
  induction readings generalizing last with
  | nil => exact trivial
  | cons r rest ih =>
    by_cases htick : (c.resolutionMs.toNat : ℤ) ≤ c.ms (r.now - last)
    · simp only [loop, htick, if_true]
      exact ⟨rfl, rfl, htick, h.le_head, ih h.from_head⟩
    · simp only [loop, htick, if_false]
      exact ih h.skip_head

namespace Ticked

theorem append (h : c.Ticked absoluteStart start (pre ++ ticks)) :
    c.Ticked absoluteStart start pre ∧ c.Ticked absoluteStart (lastReading start pre) ticks := by
  induction pre generalizing start with
  | nil => exact ⟨trivial, h⟩
  | cons t pre ih =>
    obtain ⟨hstamp, hdelta, hres, hle, hrest⟩ := h
    obtain ⟨hpre, hticks⟩ := ih hrest
    exact ⟨⟨hstamp, hdelta, hres, hle, hpre⟩, hticks⟩

theorem le_lastReading (h : c.Ticked absoluteStart start ticks) :
    start ≤ lastReading start ticks := by
  induction ticks generalizing start with
  | nil => exact le_refl start
  | cons t ticks ih => exact h.2.2.2.1.trans (ih h.2.2.2.2)

theorem le_now (h : c.Ticked absoluteStart start ticks) : ∀ t ∈ ticks, start ≤ t.now := by
  intro t ht
  obtain ⟨pre, suf, rfl⟩ := List.append_of_mem ht
  obtain ⟨hpre, hrest⟩ := h.append
  exact hpre.le_lastReading.trans hrest.2.2.2.1

theorem pairwise_now (h : c.Ticked absoluteStart start ticks) :
    ticks.Pairwise fun t u => t.now ≤ u.now := by
  induction ticks generalizing start with
  | nil => exact .nil
  | cons t ticks ih => exact .cons (le_now h.2.2.2.2) (ih h.2.2.2.2)

/-- A tick moves the reference on by a millisecond or more. -/
theorem perMs_le (h : c.Ticked absoluteStart start (t :: suf)) (hres : 1 ≤ c.resolutionMs.toNat) :
    start + c.perMs ≤ t.now := by
  have hms : 1 ≤ c.ms (t.now - start) := by
    have := h.2.2.1
    omega
  have := c.perMs_le_of_ms_pos hms
  omega

end Ticked

end ClockNode

/-! ## Timestamps -/

/-- The timestamps of the events never decrease, and each is the wall-clock start plus the time
since `start`. -/
structure TimestampsCorrect (c : ClockNode) (start absoluteStart : ℤ)
    (ticks : List Tick) : Prop where
  monotone : ((ticks.filter fun t => t.Produced).map Tick.timestampMs).Pairwise (· ≤ ·)
  exact : ∀ t ∈ ticks, t.Produced → t.timestampMs = c.ms (absoluteStart + (t.now - start))

/-- Exact timestamps are in the order of the readings. -/
theorem TimestampsCorrect.of_exact {c : ClockNode} {start absoluteStart : ℤ} {ticks : List Tick}
    (h : c.Ticked absoluteStart start ticks)
    (hexact : ∀ t ∈ ticks, t.Produced → t.timestampMs = c.ms (absoluteStart + (t.now - start))) :
    TimestampsCorrect c start absoluteStart ticks := by
  refine ⟨?_, hexact⟩
  rw [List.pairwise_map, List.pairwise_filter]
  refine h.pairwise_now.imp_of_mem ?_
  intro t u ht hu hle hpt hpu
  rw [hexact t ht (of_decide_eq_true hpt), hexact u hu (of_decide_eq_true hpu)]
  apply c.ms_mono
  omega

section Timestamps
variable {c : ClockNode} {start absoluteStart : ℤ} {ticks : List Tick}

theorem ClockNode.Ticked.timestampsCorrect_iff (h : c.Ticked absoluteStart start ticks) :
    TimestampsCorrect c start absoluteStart ticks ↔
      ∀ pre t suf, ticks = pre ++ t :: suf → t.Produced →
        c.ms (absoluteStart + (t.now - lastReading start pre)) =
          c.ms (absoluteStart + (t.now - start)) := by
  constructor
  · intro hcorrect pre t suf hsplit hprod
    subst hsplit
    rw [← (h.append).2.1]
    exact hcorrect.exact t (by simp) hprod
  · intro hsame
    refine .of_exact h fun t ht hprod => ?_
    obtain ⟨pre, suf, rfl⟩ := List.append_of_mem ht
    rw [(h.append).2.1]
    exact hsame pre t suf rfl hprod

/-- Past the first tick the reference has left the start, and the timestamp shows it. -/
theorem ClockNode.Ticked.timestamp_behind {pre suf : List Tick} {d t : Tick}
    (h : c.Ticked absoluteStart start (d :: pre ++ t :: suf)) (hres : 1 ≤ c.resolutionMs.toNat)
    (habs : 0 ≤ absoluteStart) :
    c.ms (absoluteStart + (t.now - lastReading start (d :: pre))) <
      c.ms (absoluteStart + (t.now - start)) := by
  obtain ⟨hpre, hrest⟩ := h.append
  have hmove := hpre.perMs_le hres
  have hfrom : d.now ≤ lastReading d.now pre := le_lastReading hpre.2.2.2.2
  have hnow := hrest.2.2.2.1
  simp only [lastReading] at hnow ⊢
  apply c.ms_lt_ms
  · omega
  · omega

end Timestamps

/-- The timestamps are right if and only if, for every event, the time since the tick before it and
the time since the start come to the same. With a resolution of a millisecond or more, and a wall
clock past the epoch, this says that only the first tick of the run has an event. -/
theorem timestamps_correct_iff (c : ClockNode) (start absoluteStart : ℤ) {readings : List Reading}
    (hsteady : Steady start readings) :
    (TimestampsCorrect c start absoluteStart (c.run start absoluteStart readings) ↔
      ∀ pre t suf, c.run start absoluteStart readings = pre ++ t :: suf → t.Produced →
        c.ms (absoluteStart + (t.now - lastReading start pre)) =
          c.ms (absoluteStart + (t.now - start))) ∧
      (1 ≤ c.resolutionMs.toNat → 0 ≤ absoluteStart →
        (TimestampsCorrect c start absoluteStart (c.run start absoluteStart readings) ↔
          ∀ pre t suf, c.run start absoluteStart readings = pre ++ t :: suf → t.Produced →
            pre = [])) := by
  have hticked : c.Ticked absoluteStart start (c.run start absoluteStart readings) :=
    c.loop_ticked absoluteStart hsteady
  have hiff := hticked.timestampsCorrect_iff
  refine ⟨hiff, fun hres habs => hiff.trans ⟨fun h pre t suf hsplit hprod => ?_, ?_⟩⟩
  · cases pre with
    | nil => rfl
    | cons d pre =>
      have hsame := h (d :: pre) t suf hsplit hprod
      rw [hsplit] at hticked
      exact absurd hsame (ne_of_lt (hticked.timestamp_behind hres habs))
  · intro h pre t suf hsplit hprod
    rw [h pre t suf hsplit hprod]
    rfl

def microsecondClock : ClockNode := ⟨1000, by decide, 10⟩

/-- A single tick, after a round that came too early for one. -/
theorem timestamps_correct_iff_one_tick :
    TimestampsCorrect microsecondClock 500 70000
      (microsecondClock.run 500 70000 [⟨6500, .accepted⟩, ⟨12700, .accepted⟩]) := by
  have hsteady : Steady 500 [⟨6500, .accepted⟩, ⟨12700, .accepted⟩] := by
    simp [Steady]
  refine ((timestamps_correct_iff microsecondClock 500 70000 hsteady).2 (by decide)
    (by decide)).mpr ?_
  intro pre t suf hsplit _
  have hone : microsecondClock.run 500 70000 [⟨6500, .accepted⟩, ⟨12700, .accepted⟩] =
      [⟨12700, .accepted, 82, 12⟩] := by decide
  rw [hone] at hsplit
  cases pre with
  | nil => rfl
  | cons d pre => simp at hsplit

/-- Ticks 30 ms and 40 ms after the start: the second event is stamped 20 ms before the first, and
30 ms before its time. -/
theorem timestamps_run_backwards :
    Steady 0 [⟨30000, .accepted⟩, ⟨40000, .accepted⟩] ∧
      (microsecondClock.run 0 70000 [⟨30000, .accepted⟩, ⟨40000, .accepted⟩]).map
        Tick.timestampMs = [100, 80] ∧
      microsecondClock.ms (70000 + (40000 - 0)) = 110 ∧
      ¬ TimestampsCorrect microsecondClock 0 70000
        (microsecondClock.run 0 70000 [⟨30000, .accepted⟩, ⟨40000, .accepted⟩]) := by
  refine ⟨by simp [Steady], by decide, by decide, fun h => ?_⟩
  exact absurd h.monotone (by decide)

/-! ## Deltas -/

/-- The delta of every accepted tick is the time since the accepted tick before it. -/
def DeltasMadeUp (c : ClockNode) (start : ℤ) (ticks : List Tick) : Prop :=
  ∀ pre t suf, ticks = pre ++ t :: suf → t.Accepted →
    t.deltaMs = c.ms (t.now - lastReading start (pre.filter fun u => u.Accepted))

theorem ClockNode.Ticked.filter_le {c : ClockNode} {absoluteStart start a : ℤ} {ticks : List Tick}
    (h : c.Ticked absoluteStart start ticks) (ha : a ≤ start) (p : Tick → Bool) :
    lastReading a (ticks.filter p) ≤ lastReading start ticks := by
  induction ticks generalizing start a with
  | nil => exact ha
  | cons t ticks ih =>
    obtain ⟨_, _, _, hle, hrest⟩ := h
    by_cases hp : p t = true
    · rw [List.filter_cons_of_pos hp]
      exact ih hrest (le_refl t.now)
    · rw [List.filter_cons_of_neg hp]
      exact ih hrest (ha.trans hle)

section Deltas
variable {c : ClockNode} {start absoluteStart : ℤ} {ticks : List Tick}

theorem ClockNode.Ticked.deltasMadeUp_iff (h : c.Ticked absoluteStart start ticks) :
    DeltasMadeUp c start ticks ↔
      ∀ pre t suf, ticks = pre ++ t :: suf → t.Accepted →
        c.ms (t.now - lastReading start pre) =
          c.ms (t.now - lastReading start (pre.filter fun u => u.Accepted)) := by
  refine forall₅_congr fun pre t suf hsplit _ => ?_
  subst hsplit
  rw [(h.append).2.2.1]

/-- The reading of a dropped tick is the reference of the next one, and its time is lost. -/
theorem ClockNode.Ticked.delta_short {pre suf : List Tick} {d t : Tick}
    (h : c.Ticked absoluteStart start (pre ++ d :: t :: suf)) (hres : 1 ≤ c.resolutionMs.toNat)
    (hdrop : ¬ d.Accepted) :
    c.ms (t.now - lastReading start (pre ++ [d])) <
      c.ms (t.now - lastReading start ((pre ++ [d]).filter fun u => u.Accepted)) := by
  obtain ⟨hpre, hrest⟩ := h.append
  have hmove := hrest.perMs_le hres
  have hbehind := hpre.filter_le (le_refl start) fun u => u.Accepted
  have hnow : d.now ≤ t.now := hrest.2.2.2.2.2.2.2.1
  have hfilter : ((pre ++ [d]).filter fun u => u.Accepted) = pre.filter fun u => u.Accepted := by
    simp [hdrop]
  rw [lastReading_append, hfilter]
  simp only [lastReading]
  apply c.ms_lt_ms
  · omega
  · omega

end Deltas

/-- The deltas make up for dropped ticks if and only if, for every accepted tick, the time since the
tick before it and the time since the accepted tick before it come to the same. With a resolution of
a millisecond or more, this says that no accepted tick follows a dropped one. -/
theorem deltas_made_up_iff (c : ClockNode) (start absoluteStart : ℤ) {readings : List Reading}
    (hsteady : Steady start readings) :
    (DeltasMadeUp c start (c.run start absoluteStart readings) ↔
      ∀ pre t suf, c.run start absoluteStart readings = pre ++ t :: suf → t.Accepted →
        c.ms (t.now - lastReading start pre) =
          c.ms (t.now - lastReading start (pre.filter fun u => u.Accepted))) ∧
      (1 ≤ c.resolutionMs.toNat →
        (DeltasMadeUp c start (c.run start absoluteStart readings) ↔
          ∀ pre d t suf, c.run start absoluteStart readings = pre ++ d :: t :: suf → t.Accepted →
            d.Accepted)) := by
  have hticked : c.Ticked absoluteStart start (c.run start absoluteStart readings) :=
    c.loop_ticked absoluteStart hsteady
  have hiff := hticked.deltasMadeUp_iff
  refine ⟨hiff, fun hres => hiff.trans ⟨fun h pre d t suf hsplit hacc => ?_, ?_⟩⟩
  · by_contra hdrop
    have hsame := h (pre ++ [d]) t suf (by rw [hsplit, List.append_assoc]; rfl) hacc
    rw [hsplit] at hticked
    exact absurd hsame (ne_of_lt (hticked.delta_short hres hdrop))
  · intro h pre t suf hsplit hacc
    rcases List.eq_nil_or_concat pre with rfl | ⟨before, d, rfl⟩
    · rfl
    · have hd : d.Accepted := h before d t suf (by rw [hsplit]; simp) hacc
      simp [hd, lastReading_append, lastReading]

/-- Two accepted ticks, then a dropped one. -/
theorem deltas_made_up_iff_drop_last :
    DeltasMadeUp microsecondClock 0 (microsecondClock.run 0 0
      [⟨10000, .accepted⟩, ⟨24500, .accepted⟩, ⟨35000, .rejected⟩]) := by
  have hsteady : Steady 0 [⟨10000, .accepted⟩, ⟨24500, .accepted⟩, ⟨35000, .rejected⟩] := by
    simp [Steady]
  refine ((deltas_made_up_iff microsecondClock 0 0 hsteady).2 (by decide)).mpr ?_
  have hticks : microsecondClock.run 0 0
      [⟨10000, .accepted⟩, ⟨24500, .accepted⟩, ⟨35000, .rejected⟩] =
      [⟨10000, .accepted, 10, 10⟩, ⟨24500, .accepted, 14, 14⟩, ⟨35000, .rejected, 10, 10⟩] := by
    decide
  rw [hticks]
  intro pre d t suf hsplit hacc
  rcases pre with _ | ⟨_, _ | ⟨_, _ | ⟨_, pre⟩⟩⟩
  · cases hsplit
    rfl
  · cases hsplit
    cases hacc
  · cases hsplit
  · simp at hsplit

/-- Ticks at 10, 20 and 30 ms, of which the pool drops the first and the conduit the second: the
third is the first to be accepted, and its delta is 10 ms. -/
theorem dropped_ticks_lose_time :
    Steady 0 [⟨10000, .exhausted⟩, ⟨20000, .rejected⟩, ⟨30000, .accepted⟩] ∧
      (microsecondClock.run 0 0
        [⟨10000, .exhausted⟩, ⟨20000, .rejected⟩, ⟨30000, .accepted⟩]).filter
        (fun t => t.Accepted) = [⟨30000, .accepted, 10, 10⟩] ∧
      microsecondClock.ms (30000 - 0) = 30 ∧
      ¬ DeltasMadeUp microsecondClock 0 (microsecondClock.run 0 0
        [⟨10000, .exhausted⟩, ⟨20000, .rejected⟩, ⟨30000, .accepted⟩]) := by
  refine ⟨by simp [Steady], by decide, by decide, fun h => ?_⟩
  have hdelta := h [⟨10000, .exhausted, 10, 10⟩, ⟨20000, .rejected, 10, 10⟩]
    ⟨30000, .accepted, 10, 10⟩ [] (by decide) rfl
  exact absurd hdelta (by decide)

end ConduitRuntime.Timing
