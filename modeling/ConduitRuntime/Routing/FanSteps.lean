import ConduitRuntime.Foundations.Refinement
import ConduitRuntime.Ring.SpscFifo
import ConduitRuntime.Routing.RoundRobin

/-! Switches and pollers that run at the same time: any number of threads inside
`round_robin_switch::on` and `round_robin_poller::poll`, each over its own array, with the tracks'
`push` and `pop` one load or store at a time. A worker that pops one conduit is a poller with one
bound input. The control of a call keeps, for the statement of the results only, the tracks that
have refused the event, or were empty, since the call began. -/
namespace ConduitRuntime.Routing
open Execution Memory ConduitRuntime.Ring
set_option autoImplicit false

inductive OnPc (τ A : Type)
  | idle
  | walk (ev : A) (refused : List τ) (rest : List ℕ)
  | push (ev : A) (refused : List τ) (idx : ℕ) (track : τ) (rest : List ℕ)

inductive PollPc (τ : Type)
  | idle
  | walk (empty : List τ) (rest : List ℕ)
  | pop (empty : List τ) (idx : ℕ) (track : τ) (rest : List ℕ)

structure FanThreads (σ π τ A : Type) (n m size : ℕ) where
  switches : σ → Switch τ n
  pollers : π → Poller τ m
  tracks : τ → Spsc A size
  onPc : σ → OnPc τ A
  pollPc : π → PollPc τ

inductive FanAction (σ π A : Type)
  | callOn (s : σ) (ev : Option A)
  | callPoll (p : π)
  | switch (s : σ)
  | poller (p : π)

/-- How a call ends: `on` leaves `ev` with its caller or releases it, `poll` returns null or an
event. -/
inductive FanAnswer (σ π τ A : Type)
  | none
  | kept (s : σ) (ev : A) (refused : List τ)
  | released (s : σ) (track : τ) (ev : A)
  | null (p : π) (empty : List τ)
  | found (p : π) (track : τ) (ev : A)

/-- What a step does to a track, and what it returns to a caller. -/
structure FanEvent (σ π τ A : Type) where
  track : Option (τ × SpscEvent A)
  answer : FanAnswer σ π τ A

section Steps
variable {σ π τ A : Type} {n m size : ℕ} [DecidableEq σ] [DecidableEq π] [DecidableEq τ]

def FanThreads.setTrack (f : FanThreads σ π τ A n m size) (t : τ) (c : Spsc A size) :
    FanThreads σ π τ A n m size :=
  { f with tracks := Function.update f.tracks t c }

def FanThreads.setOn (f : FanThreads σ π τ A n m size) (s : σ) (pc : OnPc τ A) :
    FanThreads σ π τ A n m size :=
  { f with onPc := Function.update f.onPc s pc }

def FanThreads.setPoll (f : FanThreads σ π τ A n m size) (p : π) (pc : PollPc τ) :
    FanThreads σ π τ A n m size :=
  { f with pollPc := Function.update f.pollPc p pc }

/-- `next_ = (idx + 1) % NumOutputs`. -/
def FanThreads.advanceSwitch (f : FanThreads σ π τ A n m size) (s : σ) (idx : ℕ) :
    FanThreads σ π τ A n m size :=
  let switch := { f.switches s with next := (idx + 1) % n }
  { f with switches := Function.update f.switches s switch }

def FanThreads.advancePoller (f : FanThreads σ π τ A n m size) (p : π) (idx : ℕ) :
    FanThreads σ π τ A n m size :=
  let poller := { f.pollers p with next := (idx + 1) % m }
  { f with pollers := Function.update f.pollers p poller }

/-- `on` after a step of its `push`, whose event is the last argument. -/
def afterPush (f : FanThreads σ π τ A n m size) (s : σ) (ev : A) (refused : List τ) (idx : ℕ)
    (t : τ) (rest : List ℕ) :
    SpscEvent A → FanThreads σ π τ A n m size × FanAnswer σ π τ A
  | .pushReturned _ true => ((f.advanceSwitch s idx).setOn s .idle, .released s t ev)
  | .pushReturned _ false => (f.setOn s (.walk ev (refused ++ [t]) rest), .none)
  | _ => (f, .none)

/-- `poll` after a step of its `pop`. -/
def afterPop (f : FanThreads σ π τ A n m size) (p : π) (empty : List τ) (idx : ℕ) (t : τ)
    (rest : List ℕ) : SpscEvent A → FanThreads σ π τ A n m size × FanAnswer σ π τ A
  | .popReturned (some ev) => ((f.advancePoller p idx).setPoll p .idle, .found p t ev)
  | .popReturned none => (f.setPoll p (.walk (empty ++ [t]) rest), .none)
  | _ => (f, .none)

def onStep (f : FanThreads σ π τ A n m size) (s : σ) :
    Option (FanThreads σ π τ A n m size × FanEvent σ π τ A) :=
  match f.onPc s with
  | .idle => none
  | .walk ev refused [] => some (f.setOn s .idle, ⟨none, .kept s ev refused⟩)
  | .walk ev refused (idx :: rest) =>
    match (f.switches s).outputs idx with
    | none => some (f.setOn s (.walk ev refused rest), ⟨none, .none⟩)
    | some t =>
      (spscStep (f.tracks t) (.callPush (some ev))).map fun r =>
        ((f.setTrack t r.1).setOn s (.push ev refused idx t rest), ⟨some (t, r.2), .none⟩)
  | .push ev refused idx t rest =>
    (spscStep (f.tracks t) .producer).map fun r =>
      let (f', answer) := afterPush (f.setTrack t r.1) s ev refused idx t rest r.2
      (f', ⟨some (t, r.2), answer⟩)

def pollStep (f : FanThreads σ π τ A n m size) (p : π) :
    Option (FanThreads σ π τ A n m size × FanEvent σ π τ A) :=
  match f.pollPc p with
  | .idle => none
  | .walk empty [] => some (f.setPoll p .idle, ⟨none, .null p empty⟩)
  | .walk empty (idx :: rest) =>
    match (f.pollers p).inputs idx with
    | none => some (f.setPoll p (.walk empty rest), ⟨none, .none⟩)
    | some t =>
      (spscStep (f.tracks t) .callPop).map fun r =>
        ((f.setTrack t r.1).setPoll p (.pop empty idx t rest), ⟨some (t, r.2), .none⟩)
  | .pop empty idx t rest =>
    (spscStep (f.tracks t) .consumer).map fun r =>
      let (f', answer) := afterPop (f.setTrack t r.1) p empty idx t rest r.2
      (f', ⟨some (t, r.2), answer⟩)

/-- A call starts only when its thread is idle; `on` of a null event returns at once. -/
def fanThreadStep (f : FanThreads σ π τ A n m size) :
    FanAction σ π A → Option (FanThreads σ π τ A n m size × FanEvent σ π τ A)
  | .callOn s ev =>
    match f.onPc s, ev with
    | .idle, none => some (f, ⟨none, .none⟩)
    | .idle, some ev =>
      some (f.setOn s (.walk ev [] (indices n (f.switches s).next)), ⟨none, .none⟩)
    | _, _ => none
  | .callPoll p =>
    match f.pollPc p with
    | .idle => some (f.setPoll p (.walk [] (indices m (f.pollers p).next)), ⟨none, .none⟩)
    | _ => none
  | .switch s => onStep f s
  | .poller p => pollStep f p

/-- New conduits, and switches and pollers as `bind_track` has left them. -/
def fanThreadInit (switches : σ → Switch τ n) (pollers : π → Poller τ m) (hsize : 0 < size)
    (slots : τ → ℕ → Option A) : FanThreads σ π τ A n m size where
  switches := switches
  pollers := pollers
  tracks t := spscInit hsize (slots t)
  onPc _ := .idle
  pollPc _ := .idle

/-- Each track has a single producer and a single consumer. -/
structure OneEach (switches : σ → Switch τ n) (pollers : π → Poller τ m) : Prop where
  producer : ∀ s s' i j t, (switches s).outputs i = some t → (switches s').outputs j = some t →
    s = s'
  consumer : ∀ p p' i j t, (pollers p).inputs i = some t → (pollers p').inputs j = some t →
    p = p'

end Steps

end ConduitRuntime.Routing
