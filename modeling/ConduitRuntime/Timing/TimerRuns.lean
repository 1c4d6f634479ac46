import ConduitRuntime.Timing.Buckets

/-! Runs of `schedule`, `cancel` and `tick` with any delays, in which a node may be cancelled at any
time. `tick` clears a bucket's head only: a node it returns keeps its links and its `wheel_bucket`,
and a later `cancel` writes through them. As long as such a write changes nothing that a pending
timer depends on, the wheel keeps exactly the pending timers. -/
namespace ConduitRuntime.Timing
open Execution Countdown DoublyLinked LinkChain
set_option autoImplicit false

variable {c : WheelConfig} {s t : TimerSystem} {es : List (Event ℕ)} {L : ℕ → List ℕ} {n : ℕ}

/-! ## Pending timers of a trace -/

/-- After how many ticks a node scheduled with this delay is returned. A delay of 0 selects the
bucket the clock stands at, which it reaches again after a whole turn. -/
def WheelConfig.ticksUntil (c : WheelConfig) (delay : ℕ) : ℕ :=
  if delay = 0 then c.slots.toNat else min delay (c.slots.toNat - 1)

def WheelConfig.effective (c : WheelConfig) : Event ℕ → Event ℕ
  | .scheduled n delay => .scheduled n (c.ticksUntil delay)
  | .cancelled n => .cancelled n
  | .ticked expired => .ticked expired

/-- The ticks each node has left after the trace `es`; `none` when it is not pending. -/
def WheelConfig.pending (c : WheelConfig) (es : List (Event ℕ)) : ℕ → Option ℕ :=
  remaining c.slots.toNat (es.map c.effective)

theorem WheelConfig.ticksUntil_range (c : WheelConfig) (delay : ℕ) :
    0 < c.ticksUntil delay ∧ c.ticksUntil delay ≤ c.slots.toNat := by
  have htwo := c.two_le
  unfold ticksUntil
  split_ifs <;> omega

theorem WheelConfig.slotAfter_ticksUntil (c : WheelConfig) (w : Wheel) (delay : ℕ) :
    c.slotAfter w (c.ticksUntil delay) = c.slotAfter w (min delay (c.slots.toNat - 1)) := by
  by_cases hd : delay = 0
  · rw [ticksUntil, if_pos hd, hd, Nat.zero_min, slotAfter, slotAfter, Nat.add_mod_right,
      Nat.add_zero]
  · rw [ticksUntil, if_neg hd]

theorem WheelConfig.pending_snoc (c : WheelConfig) (es : List (Event ℕ)) (e : Event ℕ) :
    c.pending (es ++ [e]) = after c.slots.toNat (c.pending es) (c.effective e) := by
  rw [pending, List.map_append, List.map_singleton, remaining_snoc]
  rfl

theorem WheelConfig.pending_scheduled (c : WheelConfig) (es : List (Event ℕ)) (n delay : ℕ) :
    c.pending (es ++ [.scheduled n delay]) =
      Function.update (c.pending es) n (some (c.ticksUntil delay)) := by
  rw [pending_snoc, effective, after, Nat.min_eq_left (c.ticksUntil_range delay).2]

/-! ## Which cancels are safe -/

/-- What `cancel(n)` writes through the links of `n` is there already, wherever a waiting node is
concerned: the head of its bucket, or the links of its two neighbours. -/
def LinksCurrent (s : TimerSystem) (n : ℕ) : Prop :=
  (s.wheel.timerPrev n = endOfList →
    s.wheel.buckets (s.wheel.wheelBucket n) = s.wheel.timerNext n) ∧
  (s.status (s.wheel.timerPrev n) = .waiting →
    s.wheel.timerNext (s.wheel.timerPrev n) = s.wheel.timerNext n) ∧
  (s.status (s.wheel.timerNext n) = .waiting →
    s.wheel.timerPrev (s.wheel.timerNext n) = s.wheel.timerPrev n)

/-- Only nodes that are not pending are scheduled; any node may be cancelled. -/
def AnyCancel (s : TimerSystem) : TimerAction → Prop
  | .schedule n _ => n < endOfList ∧ s.status n ≠ .waiting
  | .cancel n => n < endOfList
  | .tick => True

/-- A node that was returned and not scheduled since is cancelled only while its links are
current. -/
def CurrentCancel (s : TimerSystem) (a : TimerAction) : Prop :=
  AnyCancel s a ∧ ∀ n, a = .cancel n → s.status n = .expired → LinksCurrent s n

instance (s : TimerSystem) (n : ℕ) : Decidable (LinksCurrent s n) := by
  unfold LinksCurrent
  infer_instance

instance (s : TimerSystem) (a : TimerAction) : Decidable (AnyCancel s a) :=
  match a with
  | .schedule n _ => inferInstanceAs (Decidable (n < endOfList ∧ s.status n ≠ .waiting))
  | .cancel n => inferInstanceAs (Decidable (n < endOfList))
  | .tick => isTrue trivial

instance (s : TimerSystem) (a : TimerAction) : Decidable (CurrentCancel s a) :=
  match a with
  | .schedule n d =>
    decidable_of_iff (AnyCancel s (.schedule n d))
      ⟨fun h => ⟨h, fun _ he => by cases he⟩, And.left⟩
  | .cancel n =>
    decidable_of_iff (AnyCancel s (.cancel n) ∧ (s.status n = .expired → LinksCurrent s n))
      ⟨fun h => ⟨h.1, fun m he hs => by cases he; exact h.2 hs⟩, fun h => ⟨h.1, h.2 n rfl⟩⟩
  | .tick => isTrue ⟨trivial, fun _ he => by cases he⟩

theorem TimerOk.current {a : TimerAction} (h : TimerOk s a) : CurrentCancel s a := by
  cases a with
  | schedule n d => exact ⟨⟨h.1, h.2.2⟩, fun _ he => by cases he⟩
  | cancel n =>
    refine ⟨h.1, fun m he hs => ?_⟩
    cases he
    exact absurd hs h.2
  | tick => exact ⟨trivial, fun _ he => by cases he⟩

/-! ## The invariant of a run -/

structure RunInv (c : WheelConfig) (es : List (Event ℕ)) (s : TimerSystem) (L : ℕ → List ℕ) :
    Prop where
  kept : Kept c (c.pending es) s.wheel L
  waiting : ∀ n, s.status n = .waiting ↔ c.pending es n ≠ none
  idle : ∀ n, s.status n = .idle → s.wheel.wheelBucket n = endOfList
  expired : ∀ n, s.status n = .expired → s.wheel.wheelBucket n ≠ endOfList
  returns : ReturnsDue c.pending es

theorem runInv_init : RunInv c [] timerInit fun _ => [] where
  kept := Kept.init
  waiting n := by simp [timerInit, WheelConfig.pending, remaining]
  idle n _ := rfl
  expired n hn := by cases hn
  returns pre expired post heq := by simp at heq

namespace RunInv

theorem free (h : RunInv c es s L) (hn : s.status n ≠ .waiting) : c.pending es n = none := by
  by_contra hne
  exact hn ((h.waiting n).mpr hne)

/-- The nodes and timers besides the one a call is about stay as they were. -/
theorem waiting_update (h : RunInv c es s L) (n : ℕ) {status : NodeStatus} {left : Option ℕ}
    (hn : status = .waiting ↔ left ≠ none) (m : ℕ) :
    Function.update s.status n status m = .waiting ↔
      Function.update (c.pending es) n left m ≠ none := by
  by_cases hm : m = n
  · rw [hm, Function.update_self, Function.update_self]
    exact hn
  · rw [Function.update_of_ne hm, Function.update_of_ne hm]
    exact h.waiting m

theorem schedule (h : RunInv c es s L) (d : BitVec 32) (hn : n < endOfList)
    (hs : s.status n ≠ .waiting) :
    ∃ L', RunInv c (es ++ [.scheduled n d.toNat])
      ⟨c.schedule s.wheel n d, Function.update s.status n .waiting⟩ L' := by
  obtain ⟨L', hkept⟩ := h.kept.schedule (d := d) hn (h.free hs) (c.ticksUntil_range d.toNat)
    (c.slotAfter_ticksUntil s.wheel d.toNat)
  rw [← c.pending_scheduled] at hkept
  refine ⟨L', hkept, ?_, ?_, ?_, returnsDue_snoc h.returns fun expired he => by cases he⟩
  · rw [c.pending_scheduled]
    exact h.waiting_update n (by simp)
  · intro m hm
    by_cases he : m = n
    · simp [he] at hm
    · simp only [Function.update_of_ne he] at hm
      rw [schedule_wheelBucket rfl, Function.update_of_ne he]
      exact h.idle m hm
  · intro m hm
    by_cases he : m = n
    · simp [he] at hm
    · simp only [Function.update_of_ne he] at hm
      rw [schedule_wheelBucket rfl, Function.update_of_ne he]
      exact h.expired m hm

theorem pending_cancelled (es : List (Event ℕ)) (n : ℕ) :
    c.pending (es ++ [.cancelled n]) = Function.update (c.pending es) n none :=
  c.pending_snoc es _

/-- A `cancel` that leaves the wheel with the timers it is to keep, and marks the node. -/
theorem cancel_of_kept (h : RunInv c es s L) {L' : ℕ → List ℕ}
    (hkept : Kept c (Function.update (c.pending es) n none) (s.wheel.cancel n) L')
    (hbucket : (s.wheel.cancel n).wheelBucket =
      Function.update s.wheel.wheelBucket n endOfList) :
    RunInv c (es ++ [.cancelled n]) ⟨s.wheel.cancel n, Function.update s.status n .idle⟩ L' := by
  refine ⟨?_, ?_, ?_, ?_, returnsDue_snoc h.returns fun expired he => by cases he⟩
  · rw [pending_cancelled]
    exact hkept
  · rw [pending_cancelled]
    exact h.waiting_update n (by simp)
  · intro m hm
    rw [hbucket]
    by_cases he : m = n
    · rw [he, Function.update_self]
    · simp only [Function.update_of_ne he] at hm ⊢
      exact h.idle m hm
  · intro m hm
    by_cases he : m = n
    · simp [he] at hm
    · simp only [Function.update_of_ne he] at hm
      rw [hbucket, Function.update_of_ne he]
      exact h.expired m hm

theorem cancel_waiting (h : RunInv c es s L) (hs : s.status n = .waiting) :
    ∃ L', RunInv c (es ++ [.cancelled n])
      ⟨s.wheel.cancel n, Function.update s.status n .idle⟩ L' := by
  have hpending := (h.waiting n).mp hs
  obtain ⟨L', hkept⟩ := h.kept.cancel hpending
  exact ⟨L', h.cancel_of_kept hkept (cancel_wheelBucket (h.kept.bucket_ne hpending))⟩

/-- Cancelling a node that is not pending: nothing is to change. -/
theorem cancel_free (h : RunInv c es s L) (hs : s.status n ≠ .waiting)
    (hkept : Kept c (c.pending es) (s.wheel.cancel n) L)
    (hbucket : (s.wheel.cancel n).wheelBucket =
      Function.update s.wheel.wheelBucket n endOfList) :
    RunInv c (es ++ [.cancelled n]) ⟨s.wheel.cancel n, Function.update s.status n .idle⟩ L := by
  refine h.cancel_of_kept ?_ hbucket
  have hsame : Function.update (c.pending es) n none = c.pending es := by
    rw [Function.update_eq_self_iff, h.free hs]
  rw [hsame]
  exact hkept

theorem cancel_idle (h : RunInv c es s L) (hs : s.status n = .idle) :
    RunInv c (es ++ [.cancelled n]) ⟨s.wheel.cancel n, Function.update s.status n .idle⟩ L := by
  have hbucket := h.idle n hs
  apply h.cancel_free (by simp [hs])
  · rw [cancel_of_unscheduled hbucket]
    exact h.kept
  · rw [cancel_of_unscheduled hbucket, eq_comm, Function.update_eq_self_iff, hbucket]

/-- The lists of the buckets survive the cancel of a returned node exactly when its links are
current. -/
theorem cancel_expired_iff (h : RunInv c es s L) (hs : s.status n = .expired) :
    (∀ b, Linked (s.wheel.cancel n).timerNext (s.wheel.cancel n).timerPrev endOfList endOfList
      ((s.wheel.cancel n).buckets b) (L b)) ↔ LinksCurrent s n := by
  rw [h.kept.cancel_stale_iff rfl (h.expired n hs), ← h.waiting, ← h.waiting]
  rfl

theorem cancel_expired (h : RunInv c es s L) (hs : s.status n = .expired)
    (hlinks : LinksCurrent s n) :
    RunInv c (es ++ [.cancelled n]) ⟨s.wheel.cancel n, Function.update s.status n .idle⟩ L := by
  have hne : s.status n ≠ .waiting := by simp [hs]
  have hbucket := h.expired n hs
  exact h.cancel_free hne
    (h.kept.cancel_stale (h.free hne) hbucket ((h.cancel_expired_iff hs).mpr hlinks))
    (cancel_wheelBucket hbucket)

theorem tick (h : RunInv c es s L) {expired : List ℕ}
    (hexp : expired = L (c.slotAfter s.wheel 1)) :
    ∃ L', RunInv c (es ++ [.ticked expired])
      ⟨(c.tick s.wheel).1, fun n => if n ∈ expired then .expired else s.status n⟩ L' := by
  have hdue : ∀ n, n ∈ expired ↔ c.pending es n = some 1 := by
    intro n
    rw [hexp]
    exact h.kept.mem_expired n
  have hpending : ∀ n, c.pending (es ++ [.ticked expired]) n ≠ none ↔
      c.pending es n ≠ none ∧ n ∉ expired := by
    intro n
    rw [hdue, WheelConfig.pending, List.map_append]
    exact pending_ticked_iff expired fun r hr => (h.kept.range n r hr).1
  obtain ⟨L', hkept⟩ := h.kept.tick c.slots.toNat expired
  refine ⟨L', ?_, ?_, ?_, ?_, ?_⟩
  · rw [c.pending_snoc]
    exact hkept
  · intro n
    rw [hpending, ← h.waiting]
    by_cases hn : n ∈ expired <;> simp [hn]
  · intro n hn
    by_cases hm : n ∈ expired
    · simp [hm] at hn
    · simp only [hm, if_false] at hn
      exact h.idle n hn
  · intro n hn
    by_cases hm : n ∈ expired
    · exact h.kept.bucket_ne (by simp [(hdue n).mp hm])
    · simp only [hm, if_false] at hn
      exact h.expired n hn
  · refine returnsDue_snoc h.returns fun l he => ?_
    injection he with he
    subst he
    rw [hexp] at hdue ⊢
    exact ⟨(h.kept.linked _).nodup, hdue⟩

theorem step {a : TimerAction} {e : Event ℕ} (h : RunInv c es s L) (hok : CurrentCancel s a)
    (hstep : timerStep c s a = some (t, e)) : ∃ L, RunInv c (es ++ [e]) t L := by
  cases a with
  | schedule n d =>
    obtain ⟨rfl, rfl⟩ := Prod.mk.inj (Option.some.inj hstep)
    exact h.schedule d hok.1.1 hok.1.2
  | cancel n =>
    obtain ⟨rfl, rfl⟩ := Prod.mk.inj (Option.some.inj hstep)
    cases hs : s.status n with
    | idle => exact ⟨L, h.cancel_idle hs⟩
    | waiting => exact h.cancel_waiting hs
    | expired => exact ⟨L, h.cancel_expired hs (hok.2 n rfl hs)⟩
  | tick =>
    obtain ⟨rfl, rfl⟩ := Prod.mk.inj (Option.some.inj hstep)
    exact h.tick h.kept.expired_eq

end RunInv

theorem exec_runInv (h : Exec (timerStep c) CurrentCancel timerInit es s) : ∃ L, RunInv c es s L :=
  h.invariant (fun es s => ∃ L, RunInv c es s L) ⟨_, runInv_init⟩
    fun _ _ _ _ _ ⟨_, hinv⟩ hok hstep => hinv.step hok hstep

end ConduitRuntime.Timing
