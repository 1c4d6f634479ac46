import Mathlib.Order.Lattice
import ConduitRuntime.Foundations.Execution

/-! `environment`: the main thread spawns workers and I/O nodes, starts, waits and destroys; each
worker tests the flag, pops and handles; other threads push into the conduits and may call `stop`.
A call of `pop` is one step, and the conduits, parameters of the templates, are queues. Pinning a
thread to a core changes none of this and is left out. -/
namespace ConduitRuntime.Supplemental
open Execution
set_option autoImplicit false

variable {κ α : Type}

/-- Where a thread of `workers_` is: in the loop of `spawn_worker` on a conduit, in the `run` of an
I/O node, or at its end. -/
inductive EnvThread (κ α : Type)
  | test (rx : κ)
  | pop (rx : κ)
  | handle (rx : κ) (ev : α)
  | ioNode
  | done

/-- `workers_` has `count` threads; `joined` are those that are not joinable any more. `waiting` is
the position of the main thread inside `wait_for_shutdown`. -/
structure Environment (κ α : Type) where
  isRunning : Bool
  count : ℕ
  thread : ℕ → EnvThread κ α
  joined : ℕ → Bool
  waiting : Option ℕ
  conduit : κ → List α
  alive : Bool

inductive EnvAction (κ α : Type)
  | spawnWorker (rx : κ)
  | spawnIoNode
  | start
  | stop
  | waitForShutdown
  /-- The next thread in the loop of `wait_for_shutdown`. -/
  | join
  | destroy
  | push (c : κ) (ev : α)
  | worker (k : ℕ)
  /-- The `run` of an I/O node returns. -/
  | ioReturn (k : ℕ)
  deriving DecidableEq

/-- `destroyed true` is the call of `std::terminate`. -/
inductive EnvNote (κ α : Type)
  | silent
  | spawned
  | started
  | stopped
  | shutdownReturned
  | destroyed (terminated : Bool)
  | pushed (c : κ) (ev : α)
  | popped (k : ℕ) (c : κ) (ev : α)
  | handled (k : ℕ) (ev : α)
  deriving DecidableEq

namespace Environment

def setThread (s : Environment κ α) (k : ℕ) (pc : EnvThread κ α) : Environment κ α :=
  { s with thread := Function.update s.thread k pc }

/-- `emplace_back` of a thread; it may run at once. -/
def spawn (s : Environment κ α) (pc : EnvThread κ α) : Environment κ α :=
  { s.setThread s.count pc with
    count := s.count + 1
    joined := Function.update s.joined s.count false }

/-- The destructor of a vector of threads terminates the program at a joinable one. -/
def terminates (s : Environment κ α) : Bool := (List.range s.count).any fun k => !s.joined k

/-- One access of the lambda of `spawn_worker`. -/
def workerStep [DecidableEq κ] (s : Environment κ α) (k : ℕ) :
    Option (Environment κ α × EnvNote κ α) :=
  match s.thread k with
  | .test rx => some (s.setThread k (if s.isRunning then .pop rx else .done), .silent)
  | .pop rx =>
    match s.conduit rx with
    | [] => some (s.setThread k (.test rx), .silent)
    | ev :: rest =>
      some ({ s.setThread k (.handle rx ev) with conduit := Function.update s.conduit rx rest },
        .popped k rx ev)
  | .handle rx ev => some (s.setThread k (.test rx), .handled k ev)
  | .ioNode => none
  | .done => none

/-- The body of the loop of `wait_for_shutdown`; `join` blocks until the thread is done. -/
def joinStep (s : Environment κ α) : Option (Environment κ α × EnvNote κ α) :=
  match s.waiting with
  | none => none
  | some k =>
    if k < s.count then
      if s.joined k then some ({ s with waiting := some (k + 1) }, .silent)
      else
        match s.thread k with
        | .done =>
          some ({ s with waiting := some (k + 1), joined := Function.update s.joined k true },
            .silent)
        | _ => none
    else some ({ s with waiting := none }, .shutdownReturned)

end Environment

/-- Spawning, `start`, waiting and destruction are calls of the main thread. -/
def mainStep (s : Environment κ α) : EnvAction κ α → Option (Environment κ α × EnvNote κ α)
  | .spawnWorker rx => some (s.spawn (.test rx), .spawned)
  | .spawnIoNode => some (s.spawn .ioNode, .spawned)
  | .start => some ({ s with isRunning := true }, .started)
  | .waitForShutdown => some ({ s with waiting := some 0 }, .silent)
  | .destroy => some ({ s with isRunning := false, alive := false }, .destroyed s.terminates)
  | _ => none

def liveStep [DecidableEq κ] (s : Environment κ α) :
    EnvAction κ α → Option (Environment κ α × EnvNote κ α)
  | .stop => some ({ s with isRunning := false }, .stopped)
  | .join => s.joinStep
  | .push c ev =>
    some ({ s with conduit := Function.update s.conduit c (s.conduit c ++ [ev]) }, .pushed c ev)
  | .worker k => if k < s.count then s.workerStep k else none
  | .ioReturn k =>
    if k < s.count then
      match s.thread k with
      | .ioNode => some (s.setThread k .done, .silent)
      | _ => none
    else none
  | a => if s.waiting = none then mainStep s a else none

def envStep [DecidableEq κ] (s : Environment κ α) (a : EnvAction κ α) :
    Option (Environment κ α × EnvNote κ α) :=
  if s.alive then liveStep s a else none

def envInit (κ α : Type) : Environment κ α where
  isRunning := false
  count := 0
  thread _ := .done
  joined _ := false
  waiting := none
  conduit _ := []
  alive := true

/-! ## What a run shows -/

section Trace
variable [DecidableEq κ]

def EnvNote.pushed? (c : κ) : EnvNote κ α → Option α
  | .pushed c' ev => if c' = c then some ev else none
  | _ => none

def EnvNote.popped? (c : κ) : EnvNote κ α → Option α
  | .popped _ c' ev => if c' = c then some ev else none
  | _ => none

def pushedTo (c : κ) (es : List (EnvNote κ α)) : List α := es.filterMap (EnvNote.pushed? c)

def poppedFrom (c : κ) (es : List (EnvNote κ α)) : List α := es.filterMap (EnvNote.popped? c)

end Trace

def EnvNote.taken? (k : ℕ) : EnvNote κ α → Option α
  | .popped j _ ev => if j = k then some ev else none
  | _ => none

def EnvNote.handled? (k : ℕ) : EnvNote κ α → Option α
  | .handled j ev => if j = k then some ev else none
  | _ => none

/-- The events that the thread `k` has popped, and those it has given to its node. -/
def takenBy (k : ℕ) (es : List (EnvNote κ α)) : List α := es.filterMap (EnvNote.taken? k)

def handledBy (k : ℕ) (es : List (EnvNote κ α)) : List α := es.filterMap (EnvNote.handled? k)

/-- How many threads have been spawned since `wait_for_shutdown` last returned. -/
def spawnsSinceWait (es : List (EnvNote κ α)) : ℕ :=
  es.foldl (fun n e => match e with | .spawned => n + 1 | .shutdownReturned => 0 | _ => n) 0

def EnvThread.inHand : EnvThread κ α → List α
  | .handle _ ev => [ev]
  | _ => []

/-- Not between a test that found the flag set and the next one. -/
def EnvThread.atRest : EnvThread κ α → Bool
  | .pop _ => false
  | .handle _ _ => false
  | _ => true

def EnvNote.carries : EnvNote κ α → Bool
  | .pushed _ _ => true
  | .popped _ _ _ => true
  | .handled _ _ => true
  | _ => false

theorem taken_snoc (k : ℕ) (es : List (EnvNote κ α)) (e : EnvNote κ α) :
    takenBy k (es ++ [e]) = takenBy k es ++ (e.taken? k).toList :=
  filterMap_snoc _ es e

theorem handled_snoc (k : ℕ) (es : List (EnvNote κ α)) (e : EnvNote κ α) :
    handledBy k (es ++ [e]) = handledBy k es ++ (e.handled? k).toList :=
  filterMap_snoc _ es e

/-! ## Events -/

section Events
variable [DecidableEq κ] {es : List (EnvNote κ α)} {e : EnvNote κ α} {s t : Environment κ α}

theorem pushedTo_snoc (c : κ) (es : List (EnvNote κ α)) (e : EnvNote κ α) :
    pushedTo c (es ++ [e]) = pushedTo c es ++ (e.pushed? c).toList :=
  filterMap_snoc _ es e

theorem poppedFrom_snoc (c : κ) (es : List (EnvNote κ α)) (e : EnvNote κ α) :
    poppedFrom c (es ++ [e]) = poppedFrom c es ++ (e.popped? c).toList :=
  filterMap_snoc _ es e

/-- Nothing is lost between the producers and the nodes, and nothing is taken before `start`. -/
structure EnvFlow (es : List (EnvNote κ α)) (s : Environment κ α) : Prop where
  queued : ∀ c, poppedFrom c es ++ s.conduit c = pushedTo c es
  hands : ∀ k, handledBy k es ++ (s.thread k).inHand = takenBy k es
  idle : .started ∉ es → s.isRunning = false ∧ ∀ k, (s.thread k).atRest = true ∧ takenBy k es = []

theorem EnvFlow.calm (h : EnvFlow es s) (he : e.carries = false) (hconduit : t.conduit = s.conduit)
    (hhand : ∀ k, (t.thread k).inHand = (s.thread k).inHand)
    (hidle : .started ∉ es ++ [e] →
      t.isRunning = false ∧ ∀ k, (t.thread k).atRest = true) :
    EnvFlow (es ++ [e]) t := by
  have hpush : ∀ c, e.pushed? c = none := by
    intro c
    cases e <;> first | rfl | cases he
  have hpop : ∀ c, e.popped? c = none := by
    intro c
    cases e <;> first | rfl | cases he
  have htaken : ∀ k, e.taken? k = none := by
    intro k
    cases e <;> first | rfl | cases he
  have hhandled : ∀ k, e.handled? k = none := by
    intro k
    cases e <;> first | rfl | cases he
  refine ⟨?_, ?_, ?_⟩
  · intro c
    rw [poppedFrom_snoc, pushedTo_snoc, hpush, hpop, hconduit]
    simpa using h.queued c
  · intro k
    rw [handled_snoc, taken_snoc, htaken, hhandled, hhand]
    simpa using h.hands k
  · intro hnot
    obtain ⟨hflag, hrest⟩ := hidle hnot
    refine ⟨hflag, fun k => ⟨hrest k, ?_⟩⟩
    rw [taken_snoc, htaken]
    have hbefore := (h.idle fun hmem => hnot (List.mem_append_left _ hmem)).2 k
    simpa using hbefore.2

/-- A thread that goes on with nothing in its hands. -/
theorem EnvFlow.goOn (h : EnvFlow es s) {k : ℕ} {pc : EnvThread κ α}
    (hfrom : (s.thread k).inHand = []) (hto : pc.inHand = [])
    (hidle : s.isRunning = false → (s.thread k).atRest = true → pc.atRest = true) :
    EnvFlow (es ++ [.silent]) (s.setThread k pc) := by
  refine h.calm rfl rfl ?_ ?_
  · intro j
    rcases eq_or_ne j k with rfl | hj
    · rw [hfrom, ← hto]
      simp [Environment.setThread]
    · simp [Environment.setThread, hj]
  · intro hnot
    obtain ⟨hflag, hrest⟩ := h.idle fun hmem => hnot (List.mem_append_left _ hmem)
    refine ⟨hflag, fun j => ?_⟩
    rcases eq_or_ne j k with rfl | hj
    · simpa [Environment.setThread] using hidle hflag (hrest j).1
    · simpa [Environment.setThread, hj] using (hrest j).1

theorem EnvFlow.worker (h : EnvFlow es s) {k : ℕ} (hs : s.workerStep k = some (t, e)) :
    EnvFlow (es ++ [e]) t := by
  unfold Environment.workerStep at hs
  split at hs
  · rename_i rx hpc
    cases hs
    refine h.goOn (by rw [hpc]; rfl) (by split <;> rfl) ?_
    intro hflag _
    simp [hflag, EnvThread.atRest]
  · rename_i rx hpc
    -- before `start` no thread is at its `pop`
    have hstarted : .started ∈ es := by
      by_contra hnot
      have hrest := ((h.idle hnot).2 k).1
      rw [hpc] at hrest
      cases hrest
    split at hs
    · cases hs
      exact h.goOn (by rw [hpc]; rfl) rfl fun _ _ => rfl
    · rename_i ev rest hqueue
      cases hs
      refine ⟨?_, ?_, ?_⟩
      · intro c
        have hc := h.queued c
        rw [poppedFrom_snoc, pushedTo_snoc]
        rcases eq_or_ne c rx with rfl | hne
        · rw [hqueue] at hc
          simpa [EnvNote.popped?, EnvNote.pushed?] using hc
        · simpa [EnvNote.popped?, EnvNote.pushed?, hne, hne.symm] using hc
      · intro j
        have hj := h.hands j
        rw [handled_snoc, taken_snoc]
        rcases eq_or_ne j k with rfl | hne
        · rw [hpc] at hj
          simpa [Environment.setThread, EnvNote.handled?, EnvNote.taken?, EnvThread.inHand] using hj
        · simpa [Environment.setThread, EnvNote.handled?, EnvNote.taken?, hne, hne.symm] using hj
      · intro hnot
        exact absurd (List.mem_append_left _ hstarted) hnot
  · rename_i rx ev hpc
    cases hs
    refine ⟨?_, ?_, ?_⟩
    · intro c
      rw [poppedFrom_snoc, pushedTo_snoc]
      simpa [Environment.setThread, EnvNote.popped?, EnvNote.pushed?] using h.queued c
    · intro j
      have hj := h.hands j
      rw [handled_snoc, taken_snoc]
      rcases eq_or_ne j k with rfl | hne
      · rw [hpc] at hj
        simpa [Environment.setThread, EnvNote.handled?, EnvNote.taken?, EnvThread.inHand] using hj
      · simpa [Environment.setThread, EnvNote.handled?, EnvNote.taken?, hne, hne.symm] using hj
    · intro hnot
      have hrest := ((h.idle fun hmem => hnot (List.mem_append_left _ hmem)).2 k).1
      rw [hpc] at hrest
      cases hrest
  · cases hs
  · cases hs

theorem EnvFlow.join (h : EnvFlow es s) (hs : s.joinStep = some (t, e)) :
    EnvFlow (es ++ [e]) t := by
  have hidle : .started ∉ es ++ [e] → s.isRunning = false ∧ ∀ k, (s.thread k).atRest = true := by
    intro hnot
    obtain ⟨hflag, hrest⟩ := h.idle fun hmem => hnot (List.mem_append_left _ hmem)
    exact ⟨hflag, fun k => (hrest k).1⟩
  unfold Environment.joinStep at hs
  split at hs
  · cases hs
  · split_ifs at hs with hlt hjoined
    · cases hs
      exact h.calm rfl rfl (fun _ => rfl) hidle
    · split at hs
      · cases hs
        exact h.calm rfl rfl (fun _ => rfl) hidle
      · cases hs
    · cases hs
      exact h.calm rfl rfl (fun _ => rfl) hidle

/-- A new thread begins with empty hands. -/
theorem EnvFlow.spawn (h : EnvFlow es s) {pc : EnvThread κ α}
    (hnew : (s.thread s.count).inHand = []) (hhand : pc.inHand = []) (hrest : pc.atRest = true) :
    EnvFlow (es ++ [.spawned]) (s.spawn pc) := by
  refine h.calm rfl rfl ?_ ?_
  · intro k
    rcases eq_or_ne k s.count with rfl | hk
    · rw [hnew, ← hhand]
      simp [Environment.spawn, Environment.setThread]
    · simp [Environment.spawn, Environment.setThread, hk]
  · intro hnot
    obtain ⟨hflag, hbefore⟩ := h.idle fun hmem => hnot (List.mem_append_left _ hmem)
    refine ⟨hflag, fun k => ?_⟩
    rcases eq_or_ne k s.count with rfl | hk
    · simpa [Environment.spawn, Environment.setThread] using hrest
    · simpa [Environment.spawn, Environment.setThread, hk] using (hbefore k).1

theorem EnvFlow.main (h : EnvFlow es s) (hnew : (s.thread s.count).inHand = [])
    {a : EnvAction κ α} (hs : mainStep s a = some (t, e)) : EnvFlow (es ++ [e]) t := by
  cases a with
  | spawnWorker rx =>
    cases hs
    exact h.spawn hnew rfl rfl
  | spawnIoNode =>
    cases hs
    exact h.spawn hnew rfl rfl
  | start =>
    cases hs
    exact h.calm rfl rfl (fun _ => rfl) fun hnot => absurd (List.mem_append_right _ (by simp)) hnot
  | waitForShutdown =>
    cases hs
    refine h.calm rfl rfl (fun _ => rfl) fun hnot => ?_
    obtain ⟨hflag, hrest⟩ := h.idle fun hmem => hnot (List.mem_append_left _ hmem)
    exact ⟨hflag, fun k => (hrest k).1⟩
  | destroy =>
    cases hs
    refine h.calm rfl rfl (fun _ => rfl) fun hnot => ?_
    exact ⟨rfl, fun k => ((h.idle fun hmem => hnot (List.mem_append_left _ hmem)).2 k).1⟩
  | _ => cases hs

end Events

/-! ## Joining -/

section Joining
variable {es : List (EnvNote κ α)} {e : EnvNote κ α} {s t : Environment κ α}

/-- The joined threads are those spawned before the last wait, and those that the wait under way has
passed; all of them are done. -/
structure EnvJoins (es : List (EnvNote κ α)) (s : Environment κ α) : Prop where
  unspawned : ∀ k, s.count ≤ k → s.thread k = .done
  position : s.waiting.getD 0 ≤ s.count
  spawns : spawnsSinceWait es ≤ s.count
  joined : ∀ k < s.count,
    (s.joined k = true ↔ k < max (s.waiting.getD 0) (s.count - spawnsSinceWait es))
  ended : ∀ k < s.count, s.joined k = true → s.thread k = .done

theorem spawnsSinceWait_snoc (es : List (EnvNote κ α)) (e : EnvNote κ α) :
    spawnsSinceWait (es ++ [e]) =
      match e with
      | .spawned => spawnsSinceWait es + 1
      | .shutdownReturned => 0
      | _ => spawnsSinceWait es := by
  rw [spawnsSinceWait, List.foldl_append]
  rfl

theorem EnvJoins.keep (h : EnvJoins es s) (he : spawnsSinceWait (es ++ [e]) = spawnsSinceWait es)
    (hcount : t.count = s.count) (hthread : t.thread = s.thread) (hjoined : t.joined = s.joined)
    (hwaiting : t.waiting.getD 0 = s.waiting.getD 0) : EnvJoins (es ++ [e]) t := by
  obtain ⟨h1, h2, h3, h4, h5⟩ := h
  refine ⟨?_, ?_, ?_, ?_, ?_⟩
  · rwa [hcount, hthread]
  · rwa [hcount, hwaiting]
  · rwa [hcount, he]
  · rwa [hcount, hjoined, hwaiting, he]
  · rwa [hcount, hjoined, hthread]

/-- A step of a thread that is not done; no such thread has been joined. -/
theorem EnvJoins.move (h : EnvJoins es s) {k : ℕ} (hk : k < s.count) (hpc : s.thread k ≠ .done)
    {pc : EnvThread κ α} (he : spawnsSinceWait (es ++ [e]) = spawnsSinceWait es)
    (hcount : t.count = s.count) (hthread : t.thread = Function.update s.thread k pc)
    (hjoined : t.joined = s.joined) (hwaiting : t.waiting = s.waiting) :
    EnvJoins (es ++ [e]) t := by
  refine ⟨?_, ?_, ?_, ?_, ?_⟩
  · intro j hj
    rw [hcount] at hj
    rw [hthread, Function.update_of_ne (by omega)]
    exact h.unspawned j hj
  · rw [hcount, hwaiting]
    exact h.position
  · rw [hcount, he]
    exact h.spawns
  · rw [hcount, hjoined, hwaiting, he]
    exact h.joined
  · rw [hcount, hjoined, hthread]
    intro j hj hyes
    have hne : j ≠ k := by
      rintro rfl
      exact hpc (h.ended j hj hyes)
    rw [Function.update_of_ne hne]
    exact h.ended j hj hyes

theorem EnvJoins.worker [DecidableEq κ] (h : EnvJoins es s) {k : ℕ} (hk : k < s.count)
    (hs : s.workerStep k = some (t, e)) : EnvJoins (es ++ [e]) t := by
  unfold Environment.workerStep at hs
  split at hs
  · rename_i rx hpc
    cases hs
    exact h.move hk (by simp [hpc]) (spawnsSinceWait_snoc _ _) rfl rfl rfl rfl
  · rename_i rx hpc
    split at hs <;> cases hs <;>
      exact h.move hk (by simp [hpc]) (spawnsSinceWait_snoc _ _) rfl rfl rfl rfl
  · rename_i rx ev hpc
    cases hs
    exact h.move hk (by simp [hpc]) (spawnsSinceWait_snoc _ _) rfl rfl rfl rfl
  · cases hs
  · cases hs

theorem EnvJoins.join (h : EnvJoins es s) (hs : s.joinStep = some (t, e)) :
    EnvJoins (es ++ [e]) t := by
  obtain ⟨hunspawned, hpos, hspawns, hjoined, hended⟩ := h
  unfold Environment.joinStep at hs
  split at hs
  · cases hs
  · rename_i k hwaiting
    simp only [hwaiting, Option.getD_some] at hpos hjoined
    have hspawn := spawnsSinceWait_snoc es e
    split_ifs at hs with hlt hyes
    · cases hs
      simp only at hspawn
      refine ⟨hunspawned, hlt, by rw [hspawn]; exact hspawns, ?_, hended⟩
      intro j hj
      have hj' := hjoined j hj
      have hk' := (hjoined k hlt).mp hyes
      rw [hspawn]
      simp only [Option.getD_some]
      rcases eq_or_ne j k with rfl | hne
      · simp only [hyes, true_iff]
        omega
      · rw [hj']
        omega
    · split at hs
      · rename_i hdone
        cases hs
        simp only at hspawn
        refine ⟨hunspawned, hlt, by rw [hspawn]; exact hspawns, ?_, ?_⟩
        · intro j hj
          have hj' := hjoined j hj
          have hk' := hjoined k hlt
          rw [hspawn]
          simp only [Option.getD_some]
          rcases eq_or_ne j k with rfl | hne
          · simp only [Function.update_self, true_iff]
            omega
          · rw [Function.update_of_ne hne, hj']
            rw [Bool.not_eq_true] at hyes
            rw [hyes] at hk'
            simp only [Bool.false_eq_true, false_iff] at hk'
            omega
        · intro j hj hyes'
          rcases eq_or_ne j k with rfl | hne
          · exact hdone
          · simp only [Function.update_of_ne hne] at hyes'
            exact hended j hj hyes'
      · cases hs
    · cases hs
      simp only at hspawn
      refine ⟨hunspawned, Nat.zero_le _, by rw [hspawn]; exact Nat.zero_le _, ?_, hended⟩
      intro j hj
      have hj' := hjoined j hj
      simp only at hj
      rw [hspawn, hj']
      simp only [Option.getD_none]
      omega

theorem EnvJoins.spawn (h : EnvJoins es s) (hwaiting : s.waiting = none) (pc : EnvThread κ α) :
    EnvJoins (es ++ [.spawned]) (s.spawn pc) := by
  obtain ⟨hunspawned, -, hspawns, hjoined, hended⟩ := h
  have hspawn : spawnsSinceWait (es ++ [.spawned]) = spawnsSinceWait es + 1 :=
    spawnsSinceWait_snoc es .spawned
  simp only [hwaiting, Option.getD_none] at hjoined
  refine ⟨?_, ?_, ?_, ?_, ?_⟩
  · intro k hk
    simp only [Environment.spawn, Environment.setThread] at hk ⊢
    rw [Function.update_of_ne (by omega)]
    exact hunspawned k (by omega)
  · simp [Environment.spawn, Environment.setThread, hwaiting]
  · rw [hspawn]
    simp only [Environment.spawn]
    omega
  · intro k hk
    rw [hspawn]
    simp only [Environment.spawn, Environment.setThread, hwaiting, Option.getD_none] at hk ⊢
    rcases eq_or_ne k s.count with rfl | hne
    · simp only [Function.update_self, Bool.false_eq_true, false_iff]
      omega
    · rw [Function.update_of_ne hne, hjoined k (by omega)]
      omega
  · intro k hk hyes
    simp only [Environment.spawn, Environment.setThread] at hk hyes ⊢
    rcases eq_or_ne k s.count with rfl | hne
    · simp at hyes
    · rw [Function.update_of_ne hne] at hyes ⊢
      exact hended k (by omega) hyes

theorem EnvJoins.main (h : EnvJoins es s) (hwaiting : s.waiting = none) {a : EnvAction κ α}
    (hs : mainStep s a = some (t, e)) : EnvJoins (es ++ [e]) t := by
  cases a with
  | spawnWorker rx =>
    cases hs
    exact h.spawn hwaiting _
  | spawnIoNode =>
    cases hs
    exact h.spawn hwaiting _
  | start =>
    cases hs
    exact h.keep (spawnsSinceWait_snoc _ _) rfl rfl rfl rfl
  | waitForShutdown =>
    cases hs
    exact h.keep (spawnsSinceWait_snoc _ _) rfl rfl rfl (by rw [hwaiting]; rfl)
  | destroy =>
    cases hs
    exact h.keep (spawnsSinceWait_snoc _ _) rfl rfl rfl rfl
  | _ => cases hs

end Joining

end ConduitRuntime.Supplemental
