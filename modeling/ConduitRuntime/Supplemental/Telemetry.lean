import ConduitRuntime.Foundations.Execution
import ConduitRuntime.Foundations.Tally
import Mathlib.Algebra.BigOperators.Group.List.Lemmas
import Mathlib.Algebra.Order.BigOperators.Group.List
import Mathlib.Algebra.Order.Ring.Nat

/-! `telemetry_wrapper` and `telemetry_scraper`: the wrapped nodes count their events while the
scraper reads the counters one after the other, without any lock. Reads and increments of a counter
are taken as indivisible. -/
namespace ConduitRuntime.Supplemental
open Execution Tally
set_option autoImplicit false

/-- Where the scraper is inside `run`; `read k total` is before the read of the target `k`. -/
inductive ScraperPc
  | outside
  | setRunning
  | test
  | sleep
  | read (k : ℕ) (currentTotal : BitVec 64)

/-- `processedEvents i` is the counter of the wrapper `i`. -/
structure Telemetry (ι : Type) where
  processedEvents : ι → BitVec 64
  targets : List ι
  isRunning : Bool
  lastTotal : BitVec 64
  pc : ScraperPc

/-- `on i` is the increment at the beginning of the wrapper's `on`. -/
inductive TelemetryAction (ι : Type)
  | on (i : ι)
  | callRun
  | scraper
  | stop

inductive TelemetryNote (ι : Type)
  | silent
  | counted (i : ι)
  | started
  | began
  | printed (eps total : BitVec 64)
  deriving DecidableEq

section Model
variable {ι : Type} [DecidableEq ι]

def scraperStep (s : Telemetry ι) : Option (Telemetry ι × TelemetryNote ι) :=
  match s.pc with
  | .outside => none
  | .setRunning => some ({ s with isRunning := true, lastTotal := 0, pc := .test }, .started)
  | .test => some ({ s with pc := if s.isRunning then .sleep else .outside }, .silent)
  | .sleep => some ({ s with pc := .read 0 0 }, .began)
  | .read k currentTotal =>
    match s.targets[k]? with
    | some i => some ({ s with pc := .read (k + 1) (currentTotal + s.processedEvents i) }, .silent)
    | none =>
      some ({ s with lastTotal := currentTotal, pc := .test },
        .printed (currentTotal - s.lastTotal) currentTotal)

def telemetryStep (s : Telemetry ι) : TelemetryAction ι → Option (Telemetry ι × TelemetryNote ι)
  | .on i =>
    some ({ s with processedEvents :=
      Function.update s.processedEvents i (s.processedEvents i + 1) }, .counted i)
  | .callRun =>
    match s.pc with
    | .outside => some ({ s with pc := .setRunning }, .silent)
    | _ => none
  | .scraper => scraperStep s
  | .stop => some ({ s with isRunning := false }, .silent)

def telemetryInit (targets : List ι) : Telemetry ι where
  processedEvents _ := 0
  targets := targets
  isRunning := false
  lastTotal := 0
  pc := .outside

/-! ## What a run shows -/

/-- The events that the wrapper `i` has seen. -/
def onCount (es : List (TelemetryNote ι)) : ι → ℕ := tally .counted es

/-- The events of all the targets, each counted as often as it is registered. -/
def targetSum (targets : List ι) (es : List (TelemetryNote ι)) : ℕ :=
  (targets.map (onCount es)).sum

/-- The throughputs printed since `run` was last called. -/
def printedEps (es : List (TelemetryNote ι)) : List (BitVec 64) :=
  es.foldl (fun eps e => match e with
    | .started => []
    | .printed n _ => eps ++ [n]
    | _ => eps) []

/-! ## Counts along a run -/

theorem targetSum_append_le (targets : List ι) (pre post : List (TelemetryNote ι)) :
    targetSum targets pre ≤ targetSum targets (pre ++ post) :=
  List.sum_le_sum fun i _ => tally_append_le _ pre post i

theorem targetSum_take_le (targets : List ι) (k : ℕ) (es : List (TelemetryNote ι)) :
    targetSum (targets.take k) es ≤ targetSum targets es := by
  have hsplit := congrArg (fun l => (l.map (onCount es)).sum) (List.take_append_drop k targets)
  simp only [List.map_append, List.sum_append] at hsplit
  unfold targetSum
  omega

theorem targetSum_take_succ {targets : List ι} {k : ℕ} {i : ι} (h : targets[k]? = some i)
    (es : List (TelemetryNote ι)) :
    targetSum (targets.take (k + 1)) es = targetSum (targets.take k) es + onCount es i := by
  simp [targetSum, List.take_add_one, h]

/-- A sweep over the first `k` targets that began after `pre`: the sum of what was read is between
the sums of the counts then and now. -/
structure Sweep (targets : List ι) (es : List (TelemetryNote ι)) (last : BitVec 64) (k : ℕ)
    (total : BitVec 64) (pre mid : List (TelemetryNote ι)) : Prop where
  split : es = pre ++ .began :: mid
  once : .began ∉ mid
  last_le : last.toNat ≤ targetSum targets pre
  reached : k ≤ targets.length
  lower : targetSum (targets.take k) pre ≤ total.toNat
  upper : total.toNat ≤ targetSum (targets.take k) es

theorem Sweep.snoc {targets : List ι} {es pre mid : List (TelemetryNote ι)} {last total : BitVec 64}
    {k : ℕ} (h : Sweep targets es last k total pre mid) {e : TelemetryNote ι} (he : e ≠ .began) :
    Sweep targets (es ++ [e]) last k total pre (mid ++ [e]) := by
  obtain ⟨hsplit, honce, hlast, hreached, hlower, hupper⟩ := h
  refine ⟨?_, ?_, hlast, hreached, hlower, hupper.trans (targetSum_append_le _ es [e])⟩
  · rw [hsplit]
    simp
  · simpa [honce] using Ne.symm he

theorem Sweep.read {targets : List ι} {es pre mid : List (TelemetryNote ι)} {last total : BitVec 64}
    {k : ℕ} (h : Sweep targets es last k total pre mid) {i : ι} (hi : targets[k]? = some i)
    (hfits : targetSum targets es < 2 ^ 64) :
    Sweep targets es last (k + 1) (total + BitVec.ofNat 64 (onCount es i)) pre mid := by
  obtain ⟨hsplit, honce, hlast, hreached, hlower, hupper⟩ := h
  have hk : k < targets.length := (List.getElem?_eq_some_iff.mp hi).1
  have hsucc := targetSum_take_succ hi es
  have hle := targetSum_take_le targets (k + 1) es
  have hmono : onCount pre i ≤ onCount es i := hsplit ▸ tally_append_le _ pre _ i
  have hsum : (total + BitVec.ofNat 64 (onCount es i)).toNat = total.toNat + onCount es i := by
    rw [BitVec.toNat_add, BitVec.toNat_ofNat, Nat.mod_eq_of_lt (a := onCount es i) (by omega),
      Nat.mod_eq_of_lt (by omega)]
  refine ⟨hsplit, honce, hlast, hk, ?_, ?_⟩
  · rw [targetSum_take_succ hi pre, hsum]
    omega
  · rw [hsum, hsucc]
    omega

omit [DecidableEq ι] in
theorem printedEps_snoc (es : List (TelemetryNote ι)) (e : TelemetryNote ι) :
    printedEps (es ++ [e]) = match e with
      | .started => []
      | .printed n _ => printedEps es ++ [n]
      | _ => printedEps es := by
  rw [printedEps, List.foldl_append]
  rfl

/-- The scraper's variables as long as no counter can have wrapped. -/
structure ScraperOk (targets : List ι) (es : List (TelemetryNote ι)) (s : Telemetry ι) : Prop where
  last_le : s.lastTotal.toNat ≤ targetSum targets es
  eps : ((printedEps es).map BitVec.toNat).sum = s.lastTotal.toNat
  sweep : ∀ k total, s.pc = .read k total →
    ∃ pre mid, Sweep targets es s.lastTotal k total pre mid

structure TelemetryInv (targets : List ι) (es : List (TelemetryNote ι)) (s : Telemetry ι) :
    Prop where
  targets_eq : s.targets = targets
  counters : Shows .counted es s.processedEvents
  scraper : targetSum targets es < 2 ^ 64 → ScraperOk targets es s

section Runs
variable {targets : List ι} {es : List (TelemetryNote ι)} {s t : Telemetry ι} {e : TelemetryNote ι}

/-- A step of another thread, or one that changes nothing the scraper has read. -/
theorem ScraperOk.keep (h : ScraperOk targets es s) (hlast : t.lastTotal = s.lastTotal)
    (hpc : ∀ k total, t.pc = .read k total → s.pc = .read k total) (hstarted : e ≠ .started)
    (hbegan : e ≠ .began) (hprinted : ∀ eps total, e ≠ .printed eps total) :
    ScraperOk targets (es ++ [e]) t := by
  have heps : printedEps (es ++ [e]) = printedEps es := by
    rw [printedEps_snoc]
    cases e with
    | started => exact absurd rfl hstarted
    | printed eps total => exact absurd rfl (hprinted eps total)
    | _ => rfl
  refine ⟨?_, ?_, ?_⟩
  · rw [hlast]
    exact h.last_le.trans (targetSum_append_le targets es [e])
  · rw [heps, hlast]
    exact h.eps
  · intro k total hread
    obtain ⟨pre, mid, hsweep⟩ := h.sweep k total (hpc k total hread)
    rw [hlast]
    exact ⟨pre, mid ++ [e], hsweep.snoc hbegan⟩

theorem TelemetryInv.fits (hfits : targetSum targets (es ++ [e]) < 2 ^ 64) :
    targetSum targets es < 2 ^ 64 :=
  (targetSum_append_le targets es [e]).trans_lt hfits

theorem TelemetryInv.on (h : TelemetryInv targets es s) (i : ι) :
    TelemetryInv targets (es ++ [.counted i])
      { s with processedEvents :=
          Function.update s.processedEvents i (s.processedEvents i + 1) } := by
  refine ⟨h.targets_eq, h.counters.increment (fun _ _ he => by cases he; rfl) i, ?_⟩
  intro hfits
  exact (h.scraper (fits hfits)).keep rfl (fun _ _ hpc => hpc) (by simp) (by simp) (by simp)

/-- The end of a sweep. -/
theorem TelemetryInv.printed (h : TelemetryInv targets es s) {k : ℕ} {total : BitVec 64}
    (hpc : s.pc = .read k total) (hend : s.targets[k]? = none)
    (hfits : targetSum targets es < 2 ^ 64) :
    ∃ pre mid, es = pre ++ .began :: mid ∧ .began ∉ mid ∧
      targetSum targets pre ≤ total.toNat ∧ total.toNat ≤ targetSum targets es ∧
      (total - s.lastTotal).toNat + s.lastTotal.toNat = total.toNat := by
  obtain ⟨pre, mid, hsplit, honce, hlast, hreached, hlower, hupper⟩ :=
    (h.scraper hfits).sweep k total hpc
  have hk : k = targets.length := by
    rw [h.targets_eq] at hend
    exact Nat.le_antisymm hreached (List.getElem?_eq_none_iff.mp hend)
  rw [hk, List.take_length] at hlower hupper
  refine ⟨pre, mid, hsplit, honce, hlower, hupper, ?_⟩
  rw [BitVec.toNat_sub_of_le (BitVec.le_def.mpr (hlast.trans hlower))]
  omega

theorem TelemetryInv.scraperStep (h : TelemetryInv targets es s)
    (hs : scraperStep s = some (t, e)) : TelemetryInv targets (es ++ [e]) t := by
  have hcounters : t.processedEvents = s.processedEvents ∧ t.targets = s.targets ∧
      ∀ i, e ≠ .counted i := by
    unfold Supplemental.scraperStep at hs
    split at hs
    · cases hs
    · cases hs
      exact ⟨rfl, rfl, by simp⟩
    · cases hs
      exact ⟨rfl, rfl, by simp⟩
    · cases hs
      exact ⟨rfl, rfl, by simp⟩
    · split at hs
      · cases hs
        exact ⟨rfl, rfl, by simp⟩
      · cases hs
        exact ⟨rfl, rfl, by simp⟩
  obtain ⟨hcounts, htargets, hnote⟩ := hcounters
  refine ⟨htargets.trans h.targets_eq, hcounts ▸ h.counters.other hnote, ?_⟩
  intro hfits'
  have hfits := fits hfits'
  have hok := h.scraper hfits
  unfold Supplemental.scraperStep at hs
  split at hs
  · cases hs
  · cases hs
    refine ⟨Nat.zero_le _, ?_, ?_⟩
    · rw [printedEps_snoc]
      rfl
    · intro k total hread
      cases hread
  · cases hs
    refine hok.keep rfl ?_ (by simp) (by simp) (by simp)
    intro k total hread
    by_cases hrun : s.isRunning = true <;> simp [hrun] at hread
  · cases hs
    refine ⟨hok.last_le.trans (targetSum_append_le targets es _), ?_, ?_⟩
    · rw [printedEps_snoc]
      exact hok.eps
    · intro k total hread
      cases hread
      exact ⟨es, [], rfl, by simp, hok.last_le, Nat.zero_le _, Nat.zero_le _, Nat.zero_le _⟩
  · rename_i k total hpc
    split at hs
    · rename_i i hi
      cases hs
      obtain ⟨pre, mid, hsweep⟩ := hok.sweep k total hpc
      rw [h.targets_eq] at hi
      have hread := (hsweep.read hi hfits).snoc (e := .silent) (by simp)
      rw [← show s.processedEvents i = BitVec.ofNat 64 (onCount es i) from h.counters i] at hread
      refine ⟨hok.last_le.trans (targetSum_append_le targets es _), ?_, ?_⟩
      · rw [printedEps_snoc]
        exact hok.eps
      · intro k' total' hread'
        cases hread'
        exact ⟨pre, _, hread⟩
    · rename_i hend
      cases hs
      obtain ⟨pre, mid, hsplit, honce, hlower, hupper, heps⟩ := h.printed hpc hend hfits
      refine ⟨hupper.trans (targetSum_append_le targets es _), ?_, ?_⟩
      · rw [printedEps_snoc, List.map_append, List.sum_append, hok.eps, List.map_singleton,
          List.sum_singleton, Nat.add_comm]
        exact heps
      · intro k' total' hread'
        cases hread'

theorem TelemetryInv.step (h : TelemetryInv targets es s) {a : TelemetryAction ι}
    (hs : telemetryStep s a = some (t, e)) : TelemetryInv targets (es ++ [e]) t := by
  cases a with
  | on i =>
    cases hs
    exact h.on i
  | callRun =>
    simp only [telemetryStep] at hs
    split at hs
    · cases hs
      refine ⟨h.targets_eq, h.counters.other (by simp), ?_⟩
      intro hfits
      exact (h.scraper (fits hfits)).keep rfl (by simp) (by simp) (by simp) (by simp)
    · cases hs
  | scraper => exact h.scraperStep hs
  | stop =>
    cases hs
    refine ⟨h.targets_eq, h.counters.other (by simp), ?_⟩
    intro hfits
    exact (h.scraper (fits hfits)).keep rfl (fun _ _ hpc => hpc) (by simp) (by simp) (by simp)

/-- As long as the true total is below `2 ^ 64`: a total that the scraper prints lies between the
true totals at the beginning of its sweep and at its end, its throughput is what the total has grown
by since the last one, and the throughputs of a `run` add up to its last total. -/
theorem telemetry_totals (targets : List ι) (es : List (TelemetryNote ι)) (s : Telemetry ι)
    (h : Exec telemetryStep (fun _ _ => True) (telemetryInit targets) es s)
    (hfits : targetSum targets es < 2 ^ 64) :
    (∀ a t eps total, telemetryStep s a = some (t, .printed eps total) →
      ∃ pre mid, es = pre ++ .began :: mid ∧ .began ∉ mid ∧
        targetSum targets pre ≤ total.toNat ∧ total.toNat ≤ targetSum targets es ∧
        eps.toNat + s.lastTotal.toNat = total.toNat) ∧
    ((printedEps es).map BitVec.toNat).sum = s.lastTotal.toNat := by
  have hi : TelemetryInv targets es s := by
    refine h.invariant (fun es s => TelemetryInv targets es s) ?_ ?_
    · refine ⟨rfl, shows_nil _, fun _ => ⟨Nat.zero_le _, rfl, ?_⟩⟩
      intro k total hread
      cases hread
    · intro es s a t e hi _ hs
      exact hi.step hs
  refine ⟨?_, (hi.scraper hfits).eps⟩
  intro a t eps total hs
  cases a with
  | on i => cases hs
  | callRun =>
    simp only [telemetryStep] at hs
    split at hs <;> cases hs
  | stop => cases hs
  | scraper =>
    simp only [telemetryStep, scraperStep] at hs
    split at hs
    · cases hs
    · cases hs
    · cases hs
    · cases hs
    · rename_i k currentTotal hpc
      split at hs
      · cases hs
      · rename_i hend
        cases hs
        exact hi.printed hpc hend hfits

/-- Two wrappers; one of them counts after it was read. -/
theorem telemetry_totals_two :
    ∃ (es : List (TelemetryNote Bool)) (s : Telemetry Bool),
      Exec telemetryStep (fun _ _ => True) (telemetryInit [false, true]) es s ∧
      (printedEps es).map BitVec.toNat = [2, 1] ∧
      ((printedEps es).map BitVec.toNat).sum = s.lastTotal.toNat := by
  have h := exec_of_run (show run telemetryStep (fun _ _ => True) (telemetryInit [false, true])
    [.callRun, .scraper, .on false, .scraper, .scraper, .scraper, .on false, .on true, .scraper,
      .scraper, .scraper, .scraper, .scraper, .scraper, .scraper] = some (_, _) from rfl)
  exact ⟨_, _, h, by decide, (telemetry_totals _ _ _ h (by decide)).2⟩

end Runs

end Model

end ConduitRuntime.Supplemental
