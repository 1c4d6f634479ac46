import ConduitRuntime.Foundations.Simulation
import ConduitRuntime.Ring.Conduit

/-! `round_robin_switch` and `round_robin_poller` over conduits named by `τ`. Both walk the indices
once around from `next_` and skip the unbound ones. -/
namespace ConduitRuntime.Routing
open Memory ConduitRuntime.Ring
set_option autoImplicit false

variable {τ A C : Type} {n size : ℕ}

structure Switch (τ : Type) (n : ℕ) where
  outputs : ℕ → Option τ
  next : ℕ

structure Poller (τ : Type) (n : ℕ) where
  inputs : ℕ → Option τ
  next : ℕ

/-- `bind_track` on the array of either class. -/
def bindTrack (n : ℕ) (array : ℕ → Option τ) (index : ℕ) (track : τ) : ℕ → Option τ :=
  if index < n then Function.update array index (some track) else array

def Switch.bindTrack (s : Switch τ n) (index : ℕ) (track : τ) : Switch τ n :=
  { s with outputs := Routing.bindTrack n s.outputs index track }

def Poller.bindTrack (s : Poller τ n) (index : ℕ) (track : τ) : Poller τ n :=
  { s with inputs := Routing.bindTrack n s.inputs index track }

/-- The values of `idx` in the loop, in order. -/
def indices (n next : ℕ) : List ℕ := (List.range n).map fun i => (next + i) % n

section Loops
variable [DecidableEq τ]

/-- The loop of `on`: the tracks afterwards and the index that took the event. -/
def pushFirst (outputs : ℕ → Option τ) (ptr : Option A) :
    (τ → Conduit A size) → List ℕ → (τ → Conduit A size) × Option ℕ
  | tracks, [] => (tracks, none)
  | tracks, idx :: rest =>
    match outputs idx with
    | none => pushFirst outputs ptr tracks rest
    | some t =>
      let (c, taken) := (tracks t).push ptr
      if taken then (Function.update tracks t c, some idx)
      else pushFirst outputs ptr (Function.update tracks t c) rest

def Switch.on (s : Switch τ n) (tracks : τ → Conduit A size) (ev : EventPtr A C) :
    Switch τ n × (τ → Conduit A size) × EventPtr A C :=
  match ev.ptr with
  | none => (s, tracks, ev)
  | some _ =>
    match pushFirst s.outputs ev.ptr tracks (indices n s.next) with
    | (tracks', some idx) => ({ s with next := (idx + 1) % n }, tracks', ev.release.1)
    | (tracks', none) => (s, tracks', ev)

/-- The loop of `poll`: the tracks afterwards, and the event found with its index. -/
def popFirst (inputs : ℕ → Option τ) (p : C) :
    (τ → Conduit A size) → List ℕ → (τ → Conduit A size) × Option (ℕ × EventPtr A C)
  | tracks, [] => (tracks, none)
  | tracks, idx :: rest =>
    match inputs idx with
    | none => popFirst inputs p tracks rest
    | some t =>
      let (c, ev) := (tracks t).pop p
      match ev.ptr with
      | some _ => (Function.update tracks t c, some (idx, ev))
      | none => popFirst inputs p (Function.update tracks t c) rest

def Poller.poll (s : Poller τ n) (tracks : τ → Conduit A size) (p : C) :
    Poller τ n × (τ → Conduit A size) × EventPtr A C :=
  match popFirst s.inputs p tracks (indices n s.next) with
  | (tracks', some (idx, ev)) => ({ s with next := (idx + 1) % n }, tracks', ev)
  | (tracks', none) => (s, tracks', .null)

/-! ## Pointers seen as something else -/

section Map
variable {B : Type} (f : A → B)

theorem update_map (tracks : τ → Conduit A size) (t : τ) (c : Conduit A size) :
    Function.update (fun u => (tracks u).map f) t (c.map f) =
      fun u => (Function.update tracks t c u).map f :=
  (Function.comp_update (Conduit.map f) tracks t c).symm

theorem pushFirst_map (outputs : ℕ → Option τ) (ptr : Option A) (tracks : τ → Conduit A size)
    (idxs : List ℕ) :
    pushFirst outputs (ptr.map f) (fun u => (tracks u).map f) idxs =
      (fun u => ((pushFirst outputs ptr tracks idxs).1 u).map f,
        (pushFirst outputs ptr tracks idxs).2) := by
  induction idxs generalizing tracks with
  | nil => rfl
  | cons idx rest ih =>
    cases hout : outputs idx with
    | none =>
      simp only [pushFirst, hout]
      exact ih tracks
    | some t =>
      simp only [pushFirst, hout, Conduit.push_map, update_map]
      cases ((tracks t).push ptr).2 with
      | false =>
        simp only [Bool.false_eq_true, if_false]
        exact ih _
      | true => simp

theorem Switch.on_map (s : Switch τ n) (tracks : τ → Conduit A size) (ev : EventPtr A C) :
    s.on (fun u => (tracks u).map f) (ev.map f) = ((s.on tracks ev).1,
      fun u => ((s.on tracks ev).2.1 u).map f, (s.on tracks ev).2.2.map f) := by
  cases hptr : ev.ptr with
  | none => simp [Switch.on, EventPtr.map, hptr]
  | some a =>
    have hpush := pushFirst_map f s.outputs ev.ptr tracks (indices n s.next)
    rw [hptr] at hpush
    rcases hfirst : pushFirst s.outputs (some a) tracks (indices n s.next) with ⟨tracks', _ | idx⟩
    · simp only [hfirst, Option.map_some] at hpush
      simp [Switch.on, EventPtr.map, hptr, hpush, hfirst]
    · simp only [hfirst, Option.map_some] at hpush
      simp [Switch.on, EventPtr.map, hptr, hpush, hfirst, EventPtr.release, EventPtr.cleared]

end Map

end Loops

/-! ## A switch and a poller over the same tracks -/

structure Fan (τ A : Type) (n size : ℕ) where
  switch : Switch τ n
  poller : Poller τ n
  tracks : τ → Conduit A size

inductive FanCall (A C : Type)
  | on (ev : EventPtr A C)
  | poll (p : C)

/-- The array that the calls of `bind_track` leave in a freshly constructed switch or poller. -/
def boundArray (n : ℕ) (bindings : List (ℕ × τ)) : ℕ → Option τ :=
  bindings.foldl (fun array b => bindTrack n array b.1 b.2) fun _ => none

/-- Both freshly constructed, then bound by the same calls of `bind_track`, over new conduits. -/
def Fan.init (bindings : List (ℕ × τ)) (hsize : 0 < size) (slots : τ → ℕ → Option A) :
    Fan τ A n size where
  switch := bindings.foldl (fun s b => s.bindTrack b.1 b.2) ⟨fun _ => none, 0⟩
  poller := bindings.foldl (fun s b => s.bindTrack b.1 b.2) ⟨fun _ => none, 0⟩
  tracks t := .fresh hsize (slots t)

/-- One complete call; the answer of `on` is what it leaves in `ev`. -/
def fanStep [DecidableEq τ] (f : Fan τ A n size) : FanCall A C → Fan τ A n size × EventPtr A C
  | .on ev =>
    let (switch, tracks, rest) := f.switch.on f.tracks ev
    ({ f with switch, tracks }, rest)
  | .poll p =>
    let (poller, tracks, ev) := f.poller.poll f.tracks p
    ({ f with poller, tracks }, ev)

/-- What the pair is for: a single queue of bounded capacity. -/
def fifoStep (capacity : ℕ) : List A → FanCall A C → List A × EventPtr A C
  | q, .on ev =>
    match ev.ptr with
    | none => (q, ev)
    | some a => if q.length < capacity then (q ++ [a], ev.release.1) else (q, ev)
  | [], .poll _ => ([], .null)
  | a :: q, .poll p => (q, ⟨some a, some .releaseToPool, some p⟩)

/-- The tracks bound at the indices below `n`, in the order of the indices. -/
def boundTracks (n : ℕ) (array : ℕ → Option τ) : List τ := (List.range n).filterMap array

/-- `K * (ConduitSize - 1)`, where `K` indices are bound. -/
def fanCapacity (n size : ℕ) (bindings : List (ℕ × τ)) : ℕ :=
  (boundTracks n (boundArray n bindings)).length * (size - 1)

end ConduitRuntime.Routing
