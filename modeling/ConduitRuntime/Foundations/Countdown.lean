import Mathlib.Data.List.Induction
import Mathlib.Logic.Function.Basic
import Mathlib.Tactic.Common

/-! Timers as countdowns: scheduling sets a timer to its delay, capped at a horizon, every tick
counts all of them down, and a timer fires on the tick that finds it at one. -/
namespace ConduitRuntime.Countdown
set_option autoImplicit false

/-- What was done, oldest first; a tick is recorded with the timers it returned as expired. -/
inductive Event (ν : Type)
  | scheduled (n : ν) (delay : ℕ)
  | cancelled (n : ν)
  | ticked (expired : List ν)
  deriving DecidableEq

variable {ν : Type}

/-- The timer a schedule or a cancel is about. -/
def Event.target : Event ν → Option ν
  | .scheduled n _ => some n
  | .cancelled n => some n
  | .ticked _ => none

def ticks (es : List (Event ν)) : ℕ := es.countP fun e => e.target = none

theorem ticks_snoc_ticked (es : List (Event ν)) (expired : List ν) :
    ticks (es ++ [.ticked expired]) = ticks es + 1 := by
  simp [ticks, Event.target]

theorem ticks_snoc_of_target {es : List (Event ν)} {e : Event ν} {n : ν} (h : e.target = some n) :
    ticks (es ++ [e]) = ticks es := by
  simp [ticks, h]

theorem ticks_append (es fs : List (Event ν)) : ticks (es ++ fs) = ticks es + ticks fs :=
  List.countP_append

/-- Where the tick number `k` of a trace is. -/
theorem exists_tick {k : ℕ} (hk : 0 < k) {es : List (Event ν)} (hle : k ≤ ticks es) :
    ∃ pre expired post, es = pre ++ .ticked expired :: post ∧ ticks pre + 1 = k := by
  induction es using List.reverseRecOn with
  | nil => exact absurd hle (by simp [ticks]; omega)
  | append_singleton es e ih =>
    by_cases hes : k ≤ ticks es
    · obtain ⟨pre, expired, post, rfl, hpre⟩ := ih hes
      exact ⟨pre, expired, post ++ [e], by simp, hpre⟩
    · cases e with
      | ticked expired =>
        rw [ticks_snoc_ticked] at hle
        exact ⟨es, expired, [], rfl, by omega⟩
      | scheduled n delay => exact absurd hle (by rw [ticks_snoc_of_target rfl]; exact hes)
      | cancelled n => exact absurd hle (by rw [ticks_snoc_of_target rfl]; exact hes)

variable [DecidableEq ν] {horizon : ℕ}

/-- The ticks each timer has left after one more event; `none` when it is not pending. -/
def after (horizon : ℕ) (left : ν → Option ℕ) : Event ν → ν → Option ℕ
  | .scheduled n delay => Function.update left n (some (min delay horizon))
  | .cancelled n => Function.update left n none
  | .ticked _ => fun n => (left n).bind fun r => if r ≤ 1 then none else some (r - 1)

/-- The ticks each timer has left at the end of a trace that starts with none pending. -/
def remaining (horizon : ℕ) (es : List (Event ν)) : ν → Option ℕ :=
  es.foldl (after horizon) fun _ => none

theorem remaining_snoc (es : List (Event ν)) (e : Event ν) :
    remaining horizon (es ++ [e]) = after horizon (remaining horizon es) e := by
  simp [remaining]

theorem after_ticked (left : ν → Option ℕ) (expired : List ν) (n : ν) :
    after horizon left (.ticked expired) n =
      (left n).bind fun r => if r ≤ 1 then none else some (r - 1) := rfl

theorem after_ticked_iff (left : ν → Option ℕ) (expired : List ν) (n : ν) (r : ℕ) :
    after horizon left (.ticked expired) n = some r ↔ 0 < r ∧ left n = some (r + 1) := by
  rw [after_ticked, Option.bind_eq_some_iff]
  constructor
  · rintro ⟨k, hk, hif⟩
    split_ifs at hif with h1
    have hr := Option.some.inj hif
    obtain rfl : k = r + 1 := by omega
    exact ⟨by omega, hk⟩
  · rintro ⟨hpos, hk⟩
    refine ⟨r + 1, hk, ?_⟩
    rw [if_neg (by omega), Nat.add_sub_cancel]

theorem remaining_ticked_iff (es : List (Event ν)) (expired : List ν) (n : ν) (r : ℕ) :
    remaining horizon (es ++ [.ticked expired]) n = some r ↔
      0 < r ∧ remaining horizon es n = some (r + 1) := by
  rw [remaining_snoc]
  exact after_ticked_iff _ expired n r

/-- A tick ends the timers that have one tick left, and no other. -/
theorem pending_ticked_iff {es : List (Event ν)} (expired : List ν) {n : ν}
    (hpos : ∀ r, remaining horizon es n = some r → 0 < r) :
    remaining horizon (es ++ [.ticked expired]) n ≠ none ↔
      remaining horizon es n ≠ none ∧ remaining horizon es n ≠ some 1 := by
  rw [Option.ne_none_iff_exists', Option.ne_none_iff_exists']
  constructor
  · rintro ⟨r, hr⟩
    obtain ⟨hr0, hleft⟩ := (remaining_ticked_iff es expired n r).mp hr
    refine ⟨⟨_, hleft⟩, fun hone => ?_⟩
    have heq := Option.some.inj (hleft.symm.trans hone)
    omega
  · rintro ⟨⟨r, hr⟩, hne⟩
    have hr0 := hpos r hr
    have hr1 : r ≠ 1 := by
      rintro rfl
      exact hne hr
    obtain ⟨k, rfl⟩ : ∃ k, r = k + 1 := ⟨r - 1, by omega⟩
    exact ⟨k, (remaining_ticked_iff es expired n k).mpr ⟨by omega, hr⟩⟩

theorem after_of_target_ne {left : ν → Option ℕ} {e : Event ν} {n m : ν}
    (ht : e.target = some m) (hne : m ≠ n) : after horizon left e n = left n := by
  cases e with
  | scheduled k delay =>
    obtain rfl : k = m := Option.some.inj ht
    exact Function.update_of_ne hne.symm _ _
  | cancelled k =>
    obtain rfl : k = m := Option.some.inj ht
    exact Function.update_of_ne hne.symm _ _
  | ticked expired => cases ht

/-- A pending timer that nobody touches counts down by one a tick. -/
theorem foldl_untouched {left : ν → Option ℕ} {es : List (Event ν)} {n : ν} {r : ℕ}
    (hn : ∀ e ∈ es, e.target ≠ some n) (hr : 0 < r) (hleft : left n = some r) :
    es.foldl (after horizon) left n = if r ≤ ticks es then none else some (r - ticks es) := by
  induction es using List.reverseRecOn with
  | nil =>
    have h0 : ¬ r ≤ 0 := by omega
    simp [ticks, hleft, h0]
  | append_singleton es e ih =>
    have ih := ih fun e he => hn e (by simp [he])
    rw [List.foldl_append, List.foldl_cons, List.foldl_nil]
    cases ht : e.target with
    | none =>
      cases e with
      | ticked expired =>
        rw [ticks_snoc_ticked, after_ticked, ih]
        by_cases hle : r ≤ ticks es
        · rw [if_pos hle, if_pos (by omega)]
          rfl
        · rw [if_neg hle, Option.bind_some]
          by_cases hone : r - ticks es ≤ 1
          · rw [if_pos hone, if_pos (by omega)]
          · rw [if_neg hone, if_neg (by omega), Nat.sub_sub]
      | scheduled m delay => cases ht
      | cancelled m => cases ht
    | some m =>
      have hne : m ≠ n := by
        rintro rfl
        exact hn e (by simp) ht
      rw [after_of_target_ne ht hne, ih, ticks_snoc_of_target ht]

/-- A timer that is not pending stays so until it is scheduled. -/
theorem foldl_unscheduled {left : ν → Option ℕ} {es : List (Event ν)} {n : ν}
    (hn : ∀ delay, Event.scheduled n delay ∉ es) (hleft : left n = none) :
    es.foldl (after horizon) left n = none := by
  induction es using List.reverseRecOn with
  | nil => exact hleft
  | append_singleton es e ih =>
    have ih := ih fun delay he => hn delay (by simp [he])
    rw [List.foldl_append, List.foldl_cons, List.foldl_nil]
    cases e with
    | scheduled m delay =>
      have hne : n ≠ m := by
        rintro rfl
        exact hn delay (by simp)
      rw [after, Function.update_of_ne hne, ih]
    | cancelled m =>
      by_cases hm : n = m
      · rw [after, hm, Function.update_self]
      · rw [after, Function.update_of_ne hm, ih]
    | ticked expired => rw [after_ticked, ih, Option.bind_none]

theorem remaining_range (hpos : 0 < horizon) {es : List (Event ν)}
    (hdelay : ∀ n delay, Event.scheduled n delay ∈ es → 0 < delay) {n : ν} {r : ℕ}
    (hr : remaining horizon es n = some r) : 0 < r ∧ r ≤ horizon := by
  induction es using List.reverseRecOn generalizing r with
  | nil => cases hr
  | append_singleton es e ih =>
    have ih := fun r => @ih (fun n delay he => hdelay n delay (by simp [he])) r
    cases e with
    | scheduled m delay =>
      rw [remaining_snoc] at hr
      have hd := hdelay m delay (by simp)
      by_cases hm : n = m
      · subst hm
        rw [after, Function.update_self] at hr
        have := Option.some.inj hr
        omega
      · rw [after, Function.update_of_ne hm] at hr
        exact ih r hr
    | cancelled m =>
      rw [remaining_snoc] at hr
      by_cases hm : n = m
      · rw [after, hm, Function.update_self] at hr
        cases hr
      · rw [after, Function.update_of_ne hm] at hr
        exact ih r hr
    | ticked expired =>
      obtain ⟨hr0, hleft⟩ := (remaining_ticked_iff es expired n r).mp hr
      exact ⟨hr0, Nat.le_of_succ_le (ih (r + 1) hleft).2⟩

end ConduitRuntime.Countdown
