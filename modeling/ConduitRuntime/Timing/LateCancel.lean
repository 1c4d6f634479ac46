import ConduitRuntime.Timing.TimerRuns

/-! Cancelling a node that is not pending. A node that was never scheduled, or cancelled before, has
no bucket and nothing happens. A node that a tick returned still names its bucket, and `cancel`
unlinks it once more: from lists it is no longer in, and of which it may have been the head. -/
namespace ConduitRuntime.Timing
open Execution Countdown DoublyLinked LinkChain
set_option autoImplicit false

/-- Every bucket of `w'` holds the doubly linked list that it holds in `w`. -/
def SameLists (w w' : Wheel) : Prop :=
  ∀ b l, Linked w.timerNext w.timerPrev endOfList endOfList (w.buckets b) l →
    Linked w'.timerNext w'.timerPrev endOfList endOfList (w'.buckets b) l

variable {c : WheelConfig} {s : TimerSystem} {es : List (Event ℕ)} {L : ℕ → List ℕ} {x : ℕ}

theorem Kept.sameLists_iff {left : ℕ → Option ℕ} {w w' : Wheel} (h : Kept c left w L) :
    SameLists w w' ↔
      ∀ b, Linked w'.timerNext w'.timerPrev endOfList endOfList (w'.buckets b) (L b) := by
  constructor
  · intro hsame b
    exact hsame b (L b) (h.linked b)
  · intro hlists b l hl
    rw [hl.chain.unique (h.linked b).chain]
    exact hlists b

theorem RunInv.sameLists_iff (h : RunInv c es s L) (hx : x < endOfList)
    (hs : s.status x ≠ .waiting) :
    SameLists s.wheel (s.wheel.cancel x) ↔ CurrentCancel s (.cancel x) := by
  have hcurrent : CurrentCancel s (.cancel x) ↔ (s.status x = .expired → LinksCurrent s x) := by
    constructor
    · intro hok
      exact hok.2 x rfl
    · intro hlinks
      refine ⟨hx, fun n he => ?_⟩
      cases he
      exact hlinks
  rw [hcurrent]
  cases hstatus : s.status x with
  | waiting => exact absurd hstatus hs
  | idle =>
    rw [cancel_of_unscheduled (h.idle x hstatus)]
    simp [SameLists]
  | expired =>
    rw [h.kept.sameLists_iff, h.cancel_expired_iff hstatus]
    simp

theorem RunInv.due_cancel_iff (h : RunInv c es s L) (hs : s.status x ≠ .waiting)
    (hok : CurrentCancel s (.cancel x)) (n r : ℕ) :
    Due c (s.wheel.cancel x) n r ↔ Due c s.wheel n r := by
  cases hstatus : s.status x with
  | waiting => exact absurd hstatus hs
  | idle => rw [cancel_of_unscheduled (h.idle x hstatus)]
  | expired =>
    have hlists := (h.cancel_expired_iff hstatus).mpr (hok.2 x rfl hstatus)
    have hkept := h.kept.cancel_stale (h.free hs) (h.expired x hstatus) hlists
    rw [hkept.due_iff, h.kept.due_iff]

/-- In every run whose cancels of returned nodes find current links, the wheel holds exactly the
pending timers, each due when its delay ends, and cancelling a node that is not pending changes
none of them. Such a cancel leaves the buckets' lists as they are if and only if it meets that
condition. -/
theorem cancel_of_not_pending (c : WheelConfig) {es : List (Event ℕ)} {s : TimerSystem}
    (h : Exec (timerStep c) CurrentCancel timerInit es s) :
    (∀ n r, Due c s.wheel n r ↔ c.pending es n = some r) ∧
    ∀ x, s.status x ≠ .waiting →
      (CurrentCancel s (.cancel x) →
        ∀ n r, Due c (s.wheel.cancel x) n r ↔ Due c s.wheel n r) ∧
      (x < endOfList →
        (SameLists s.wheel (s.wheel.cancel x) ↔ CurrentCancel s (.cancel x))) := by
  obtain ⟨L, hinv⟩ := exec_runInv h
  refine ⟨hinv.kept.due_iff, fun x hs => ⟨hinv.due_cancel_iff hs, fun hx => ?_⟩⟩
  exact hinv.sameLists_iff hx hs

/-- The node 5 was returned and its bucket is empty: cancelling it late does no harm, and node 6
stays due in three ticks. -/
theorem cancel_of_not_pending_empty_bucket :
    ∃ es s, Exec (timerStep fourSlots) CurrentCancel timerInit es s ∧
      es = [.scheduled 5 1, .ticked [5], .scheduled 6 3] ∧ s.status 5 = .expired ∧
      (Due fourSlots (s.wheel.cancel 5) 6 3 ↔ Due fourSlots s.wheel 6 3) := by
  have h := exec_of_run (show run (timerStep fourSlots) CurrentCancel timerInit
    [.schedule 5 1, .tick, .schedule 6 3] =
      some ([.scheduled 5 1, .ticked [5], .scheduled 6 3], _) from rfl)
  exact ⟨_, _, h, rfl, rfl,
    ((cancel_of_not_pending fourSlots h).2 5 (by decide)).1 (by decide) 6 3⟩

/-- Node 5 was returned, then node 6 was put into the same bucket: cancelling 5 empties the bucket.
And of two nodes returned together, cancelling the first puts the second back. -/
theorem late_cancel_loses_and_revives :
    (∃ es s, Exec (timerStep fourSlots) AnyCancel timerInit es s ∧
      s.status 5 = .expired ∧ s.status 6 = .waiting ∧ Due fourSlots s.wheel 6 3 ∧
      ∀ r ≤ 4, ¬ Due fourSlots (s.wheel.cancel 5) 6 r) ∧
    ∃ es s, Exec (timerStep fourSlots) AnyCancel timerInit es s ∧
      s.status 5 = .expired ∧ s.status 6 = .expired ∧ (∀ r ≤ 4, ¬ Due fourSlots s.wheel 5 r) ∧
      Due fourSlots (s.wheel.cancel 6) 5 4 := by
  constructor
  · have h := exec_of_run (show run (timerStep fourSlots) AnyCancel timerInit
      [.schedule 5 1, .tick, .tick, .schedule 6 3] = some (_, _) from rfl)
    exact ⟨_, _, h, rfl, rfl, by decide, by decide⟩
  · have h := exec_of_run (show run (timerStep fourSlots) AnyCancel timerInit
      [.schedule 5 1, .schedule 6 1, .tick] = some (_, _) from rfl)
    exact ⟨_, _, h, rfl, rfl, by decide, by decide⟩

end ConduitRuntime.Timing
