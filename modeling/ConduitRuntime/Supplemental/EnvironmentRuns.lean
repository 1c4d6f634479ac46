import ConduitRuntime.Foundations.Budget
import ConduitRuntime.Supplemental.Environment

/-! Whole runs of an environment: what becomes of the events, when a worker is at its end, and what
the destructor finds. -/
namespace ConduitRuntime.Supplemental
open Execution
set_option autoImplicit false

variable {κ α : Type}

/-! ## Whole runs -/

section Runs
variable [DecidableEq κ] {es : List (EnvNote κ α)} {e : EnvNote κ α} {s t : Environment κ α}

theorem live_of_step {a : EnvAction κ α} (hs : envStep s a = some (t, e)) :
    liveStep s a = some (t, e) := by
  unfold envStep at hs
  split at hs
  · exact hs
  · cases hs

def EnvAction.isWorker (k : ℕ) : EnvAction κ α → Bool
  | .worker j => decide (j = k)
  | _ => false

def EnvAction.isStart : EnvAction κ α → Bool
  | .start => true
  | _ => false

/-- How many steps a worker still takes once the flag is down, and whether one of them is a call of
its node. -/
def EnvThread.leaving : EnvThread κ α → ℕ
  | .test _ => 1
  | .pop _ => 3
  | .handle _ _ => 2
  | _ => 0

def EnvThread.calls : EnvThread κ α → ℕ
  | .pop _ => 1
  | .handle _ _ => 1
  | _ => 0

theorem workerStep_other {k j : ℕ} (hk : k ≠ j) (hs : s.workerStep j = some (t, e)) :
    t.count = s.count ∧ t.thread k = s.thread k ∧ e.handled? k = none := by
  unfold Environment.workerStep at hs
  split at hs
  · cases hs
    exact ⟨rfl, Function.update_of_ne hk _ _, rfl⟩
  · split at hs <;> cases hs <;> exact ⟨rfl, Function.update_of_ne hk _ _, rfl⟩
  · cases hs
    exact ⟨rfl, Function.update_of_ne hk _ _, if_neg hk.symm⟩
  · cases hs
  · cases hs

/-- Nobody but the thread itself, or its I/O node, moves a thread. -/
theorem thread_of_other {a : EnvAction κ α} {k : ℕ} (hk : k < s.count) (ha : a.isWorker k = false)
    (hs : envStep s a = some (t, e)) :
    k < t.count ∧ e.handled? k = none ∧
      (t.thread k = s.thread k ∨ s.thread k = .ioNode ∧ t.thread k = .done) := by
  have hlive := live_of_step hs
  cases a with
  | stop =>
    cases hlive
    exact ⟨hk, rfl, .inl rfl⟩
  | join =>
    simp only [liveStep, Environment.joinStep] at hlive
    split at hlive
    · cases hlive
    · split_ifs at hlive
      · cases hlive
        exact ⟨hk, rfl, .inl rfl⟩
      · split at hlive
        · cases hlive
          exact ⟨hk, rfl, .inl rfl⟩
        · cases hlive
      · cases hlive
        exact ⟨hk, rfl, .inl rfl⟩
  | push c ev =>
    cases hlive
    exact ⟨hk, rfl, .inl rfl⟩
  | worker j =>
    have hne : k ≠ j := by
      rintro rfl
      simp [EnvAction.isWorker] at ha
    simp only [liveStep] at hlive
    split_ifs at hlive
    obtain ⟨hcount, hthread, hquiet⟩ := workerStep_other hne hlive
    exact ⟨hcount ▸ hk, hquiet, .inl hthread⟩
  | ioReturn j =>
    simp only [liveStep] at hlive
    split_ifs at hlive
    split at hlive
    · rename_i hpc
      cases hlive
      refine ⟨hk, rfl, ?_⟩
      rcases eq_or_ne k j with rfl | hne
      · exact .inr ⟨hpc, Function.update_self k _ _⟩
      · exact .inl (Function.update_of_ne hne _ _)
    · cases hlive
  | spawnWorker rx =>
    simp only [liveStep, mainStep] at hlive
    split_ifs at hlive
    cases hlive
    exact ⟨Nat.lt_succ_of_lt hk, rfl, .inl (Function.update_of_ne (Nat.ne_of_lt hk) _ _)⟩
  | spawnIoNode =>
    simp only [liveStep, mainStep] at hlive
    split_ifs at hlive
    cases hlive
    exact ⟨Nat.lt_succ_of_lt hk, rfl, .inl (Function.update_of_ne (Nat.ne_of_lt hk) _ _)⟩
  | start =>
    simp only [liveStep, mainStep] at hlive
    split_ifs at hlive
    cases hlive
    exact ⟨hk, rfl, .inl rfl⟩
  | waitForShutdown =>
    simp only [liveStep, mainStep] at hlive
    split_ifs at hlive
    cases hlive
    exact ⟨hk, rfl, .inl rfl⟩
  | destroy =>
    simp only [liveStep, mainStep] at hlive
    split_ifs at hlive
    cases hlive
    exact ⟨hk, rfl, .inl rfl⟩

/-- Once the flag is down, each step of a worker is one of the few it has left. -/
theorem workerStep_leaving {k : ℕ} (hflag : s.isRunning = false)
    (hs : s.workerStep k = some (t, e)) :
    t.count = s.count ∧ t.isRunning = false ∧ (t.thread k).leaving + 1 ≤ (s.thread k).leaving ∧
      (e.handled? k).toList.length + (t.thread k).calls ≤ (s.thread k).calls := by
  unfold Environment.workerStep at hs
  split at hs
  · rename_i rx hpc
    cases hs
    simp [Environment.setThread, hflag, hpc, EnvThread.leaving, EnvThread.calls, EnvNote.handled?]
  · rename_i rx hpc
    split at hs <;> cases hs <;>
      simp [Environment.setThread, hflag, hpc, EnvThread.leaving, EnvThread.calls, EnvNote.handled?]
  · rename_i rx ev hpc
    cases hs
    simp [Environment.setThread, hflag, hpc, EnvThread.leaving, EnvThread.calls, EnvNote.handled?]
  · cases hs
  · cases hs

theorem flag_stays {a : EnvAction κ α} (hflag : s.isRunning = false) (ha : a.isStart = false)
    (hs : envStep s a = some (t, e)) : t.isRunning = false := by
  have hlive := live_of_step hs
  cases a with
  | stop =>
    cases hlive
    rfl
  | join =>
    simp only [liveStep, Environment.joinStep] at hlive
    split at hlive
    · cases hlive
    · split_ifs at hlive
      · cases hlive
        exact hflag
      · split at hlive <;> cases hlive
        exact hflag
      · cases hlive
        exact hflag
  | push c ev =>
    cases hlive
    exact hflag
  | worker j =>
    simp only [liveStep] at hlive
    split_ifs at hlive
    exact (workerStep_leaving hflag hlive).2.1
  | ioReturn j =>
    simp only [liveStep] at hlive
    split_ifs at hlive
    split at hlive <;> cases hlive
    exact hflag
  | start => cases ha
  | _ =>
    simp only [liveStep, mainStep] at hlive
    split_ifs at hlive
    cases hlive
    first | exact hflag | rfl

/-- Every step of a thread after a `stop` is paid from what it has left. -/
theorem leaving_step {a : EnvAction κ α} {k : ℕ} (hk : k < s.count) (hflag : s.isRunning = false)
    (ha : a.isStart = false) (hs : envStep s a = some (t, e)) :
    (k < t.count ∧ t.isRunning = false) ∧
      (a.isWorker k).toNat + (t.thread k).leaving ≤ (s.thread k).leaving ∧
      (e.handled? k).toList.length + (t.thread k).calls ≤ (s.thread k).calls := by
  cases hown : a.isWorker k with
  | true =>
    cases a with
    | worker j =>
      obtain rfl : j = k := of_decide_eq_true hown
      have hlive := live_of_step hs
      simp only [liveStep, hk, if_true] at hlive
      obtain ⟨hcount, hdown, hleave, hcalls⟩ := workerStep_leaving hflag hlive
      refine ⟨⟨hcount ▸ hk, hdown⟩, ?_, hcalls⟩
      rw [Bool.toNat_true]
      omega
    | _ => cases hown
  | false =>
    obtain ⟨hcount, hquiet, hthread⟩ := thread_of_other hk hown hs
    refine ⟨⟨hcount, flag_stays hflag ha hs⟩, ?_⟩
    rw [hquiet]
    rcases hthread with hsame | ⟨hio, hdone⟩
    · rw [hsame]
      simp
    · rw [hdone]
      simp [EnvThread.leaving, EnvThread.calls]

theorem worker_isSome {k : ℕ} (halive : s.alive = true) (hk : k < s.count)
    (hdone : s.thread k ≠ .done) (hio : s.thread k ≠ .ioNode) :
    0 < (s.thread k).leaving ∧ (envStep s (.worker k)).isSome := by
  simp only [envStep, halive, if_true, liveStep, hk, Environment.workerStep]
  cases hpc : s.thread k with
  | test rx => exact ⟨Nat.one_pos, rfl⟩
  | pop rx =>
    refine ⟨Nat.succ_pos _, ?_⟩
    simp only
    split <;> rfl
  | handle rx ev => exact ⟨Nat.succ_pos _, rfl⟩
  | ioNode => exact absurd hpc hio
  | done => exact absurd hpc hdone

/-- Once the flag is down and until `start` is called again, whatever the other threads do: a worker
is never stuck, is at its end within three steps, and its node is called at most once more. -/
theorem environment_stops (s : Environment κ α) (hflag : s.isRunning = false)
    (as : List (EnvAction κ α)) (has : ∀ a ∈ as, a.isStart = false) (es : List (EnvNote κ α))
    (u : Environment κ α) (hrun : run envStep (fun _ _ => True) s as = some (es, u)) (k : ℕ)
    (hk : k < s.count) :
    as.countP (EnvAction.isWorker k) ≤ 3 ∧ (handledBy k es).length ≤ 1 ∧
      (u.alive = true → u.thread k ≠ .done → u.thread k ≠ .ioNode →
        as.countP (EnvAction.isWorker k) < 3 ∧ (envStep u (.worker k)).isSome) := by
  obtain ⟨⟨hku, -⟩, hleft, hcalls⟩ := run_within_budget
    (fun s : Environment κ α => k < s.count ∧ s.isRunning = false)
    (EnvAction.isWorker k) (fun s => (s.thread k).leaving)
    (EnvNote.handled? k) (fun s => (s.thread k).calls)
    (fun s a t e h ha hs => leaving_step h.1 h.2 ha hs) ⟨hk, hflag⟩ has hrun
  have hthree : (s.thread k).leaving ≤ 3 := by
    cases s.thread k <;> simp [EnvThread.leaving]
  have hone : (s.thread k).calls ≤ 1 := by
    cases s.thread k <;> simp [EnvThread.calls]
  refine ⟨by omega, ?_, ?_⟩
  · have : (handledBy k es).length = (es.filterMap (EnvNote.handled? k)).length := rfl
    omega
  · intro halive hdone hio
    obtain ⟨hpos, hsome⟩ := worker_isSome halive hku hdone hio
    exact ⟨by omega, hsome⟩

/-- `stop` arrives between the test and the `pop` of a worker. -/
def stoppedBeforePop : Environment Bool ℕ :=
  ((run envStep (fun _ _ => True) (envInit Bool ℕ)
    [.spawnWorker true, .start, .push true 7, .push true 8, .worker 0, .stop]).map
      Prod.snd).getD (envInit Bool ℕ)

/-- One more event is handled, the other stays in the conduit. -/
theorem environment_stops_before_pop :
    ∃ (es : List (EnvNote Bool ℕ)) (u : Environment Bool ℕ),
      run envStep (fun _ _ => True) stoppedBeforePop
        [.worker 0, .push true 9, .worker 0, .worker 0] = some (es, u) ∧
      handledBy 0 es = [7] ∧ u.conduit true = [8, 9] ∧ (handledBy 0 es).length ≤ 1 := by
  have hrun : run envStep (fun _ _ => True) stoppedBeforePop
    [.worker 0, .push true 9, .worker 0, .worker 0] = some (_, _) := rfl
  exact ⟨_, _, hrun, rfl, rfl, (environment_stops stoppedBeforePop rfl
    [.worker 0, .push true 9, .worker 0, .worker 0] (by decide) _ _ hrun 0 (by decide)).2.1⟩

theorem workerStep_note {k : ℕ} (hs : s.workerStep k = some (t, e)) :
    e = .silent ∨ e.carries = true := by
  unfold Environment.workerStep at hs
  split at hs
  · cases hs
    exact .inl rfl
  · split at hs <;> cases hs
    · exact .inl rfl
    · exact .inr rfl
  · cases hs
    exact .inr rfl
  · cases hs
  · cases hs

/-- The destructor finds a joinable thread exactly if one was spawned since the last wait. -/
theorem EnvJoins.destroyed (h : EnvJoins es s) {a : EnvAction κ α} {terminated : Bool}
    (hs : envStep s a = some (t, .destroyed terminated)) :
    terminated = true ↔ spawnsSinceWait es ≠ 0 := by
  have hlive := live_of_step hs
  cases a with
  | destroy =>
    simp only [liveStep, mainStep] at hlive
    split_ifs at hlive with hwaiting
    cases hlive
    have hspawns := h.spawns
    have hjoined := h.joined
    simp only [hwaiting, Option.getD_none] at hjoined
    simp only [Environment.terminates, List.any_eq_true, List.mem_range, Bool.not_eq_true']
    constructor
    · rintro ⟨k, hk, hnot⟩ hzero
      have hk' := hjoined k hk
      rw [hnot, hzero] at hk'
      simp only [Bool.false_eq_true, false_iff] at hk'
      omega
    · intro hne
      refine ⟨s.count - 1, by omega, ?_⟩
      have hk' := hjoined (s.count - 1) (by omega)
      cases hlast : s.joined (s.count - 1) with
      | false => rfl
      | true =>
        rw [hlast] at hk'
        simp only [true_iff] at hk'
        omega
  | join =>
    simp only [liveStep, Environment.joinStep] at hlive
    split at hlive
    · cases hlive
    · split_ifs at hlive
      · cases hlive
      · split at hlive <;> cases hlive
      · cases hlive
  | stop => cases hlive
  | push c ev => cases hlive
  | worker k =>
    simp only [liveStep] at hlive
    split_ifs at hlive
    rcases workerStep_note hlive with hnote | hnote <;> cases hnote
  | ioReturn k =>
    simp only [liveStep] at hlive
    split_ifs at hlive
    split at hlive <;> cases hlive
  | _ =>
    simp only [liveStep, mainStep] at hlive
    split_ifs at hlive
    cases hlive

end Runs

end ConduitRuntime.Supplemental
