import ConduitRuntime.Foundations.Refinement
import ConduitRuntime.Net.EndToEnd

/-! Nodes that talk over networked conduits: each has a `node_runtime`, whose thread polls the
node's conduits in turn, and a `mesh_router`, through which its handlers send. A conduit is one end
of a link. The polls, the router's `on` and the orchestrator's calls interleave in any way. Each
`recv` of `poll_rx` is a step of its own, as more may arrive while the loop drains the socket; a
`poll_tx`, which ends with the frames it finds, and a `push` are one step each. -/
namespace ConduitRuntime.Runtime
open Execution ConduitRuntime.Net
set_option autoImplicit false

/-- `conduit_binding`: the conduit, and whether `on_dead` is still set. The sink is the other half
of `poll_rx`, recorded by the link. -/
structure Binding (κ : Type) where
  conduit : κ × Side
  onDead : Bool

/-- Where the thread is inside `run`; the index is that of the binding in `poll_single`. -/
inductive NodePc
  | outside
  | start
  | test
  | isAlive (i : ℕ)
  | pollRx (i : ℕ)
  | pollTx (i : ℕ)
  | onDead (i : ℕ)

structure NodeRuntime (κ : Type) where
  bindings : List (Binding κ)
  isRunning : Bool
  pc : NodePc

/-- A node: its runtime, and `routes_` of its router. -/
structure MeshNode (κ : Type) where
  runtime : NodeRuntime κ
  routes : ℕ → Option (κ × Side)

section Mesh
variable {ν κ : Type} {w : ℕ} {cfg : Config w}

structure Mesh (ν κ : Type) {w : ℕ} (cfg : Config w) where
  links : κ → Link cfg
  nodes : ν → MeshNode κ

/-- What the next access of a polling thread is answered, if it asks: by `send` in `poll_tx`, by
`recv`, by `make` for a frame that `recv` completes; and the connection that `on_dead` binds the
conduit to. -/
structure Answers where
  sends : List SendOutcome := []
  recv : RecvOutcome := .wouldBlock
  canMake : Bool := true
  rebind : Option ℕ := none

/-- `poll` is the next access of the node's polling thread, `connect` a `bind_socket` of the
orchestrator. -/
inductive MeshAction (ν κ : Type) {w : ℕ} (cfg : Config w)
  | bindRoute (u : ν) (nodeId : ℕ) (conduit : κ × Side)
  | unbindRoute (u : ν) (nodeId : ℕ)
  | on (u : ν) (ev : Option (Payload cfg))
  | connect (conduit : κ × Side) (fd : ℕ)
  | callRun (u : ν)
  | stop (u : ν)
  | poll (u : ν) (answers : Answers)

/-- `routed` and `dropped` are the two ends of the router's `on` for an event; `visited` is the
start of a `poll_single`, `drained` a `recv` that gave bytes, `died` a call of `on_dead`. -/
inductive MeshNote (ν κ : Type) {w : ℕ} (cfg : Config w)
  | none
  | routed (u : ν) (ev : Payload cfg) (conduit : κ × Side)
  | dropped (u : ν) (ev : Payload cfg)
  | visited (u : ν) (i : ℕ)
  | drained (u : ν) (i : ℕ)
  | died (u : ν) (i : ℕ)
  | ended (u : ν)

/-- What a step does to a link, and what else there is to see. -/
structure MeshEvent (ν κ : Type) {w : ℕ} (cfg : Config w) where
  link : Option (κ × LinkEvent)
  note : MeshNote ν κ cfg

variable [DecidableEq ν] [DecidableEq κ]

def Mesh.setLink (m : Mesh ν κ cfg) (k : κ) (l : Link cfg) : Mesh ν κ cfg :=
  { m with links := Function.update m.links k l }

def Mesh.setRuntime (m : Mesh ν κ cfg) (u : ν) (r : NodeRuntime κ) : Mesh ν κ cfg :=
  { m with nodes := Function.update m.nodes u { m.nodes u with runtime := r } }

def Mesh.setPc (m : Mesh ν κ cfg) (u : ν) (pc : NodePc) : Mesh ν κ cfg :=
  m.setRuntime u { (m.nodes u).runtime with pc := pc }

def Mesh.setRoute (m : Mesh ν κ cfg) (u : ν) (nodeId : ℕ) (route : Option (κ × Side)) :
    Mesh ν κ cfg :=
  let routes := Function.update (m.nodes u).routes nodeId route
  { m with nodes := Function.update m.nodes u { m.nodes u with routes := routes } }

/-- A call on the conduit `c`. -/
def Mesh.call (m : Mesh ν κ cfg) (c : κ × Side) (a : LinkAction cfg) :
    Option (Mesh ν κ cfg × LinkEvent) :=
  (linkStep (m.links c.1) a).map fun r => (m.setLink c.1 r.1, r.2)

def Mesh.isAlive (m : Mesh ν κ cfg) (c : κ × Side) : Bool := !((m.links c.1).ends c.2).isDead

/-- `mesh_router::on`; the answer of `push` is ignored, but it decides who has the event. -/
def Mesh.on (maxNodes : ℕ) (target : List UInt8 → ℕ) (m : Mesh ν κ cfg) (u : ν) :
    Option (Payload cfg) → Option (Mesh ν κ cfg × MeshEvent ν κ cfg)
  | none => some (m, ⟨none, .none⟩)
  | some ev =>
    if maxNodes ≤ target ev.bytes then some (m, ⟨none, .dropped u ev⟩)
    else
      match (m.nodes u).routes (target ev.bytes) with
      | none => some (m, ⟨none, .dropped u ev⟩)
      | some c =>
        if m.isAlive c then
          (m.call c (.push c.2 (some ev))).map fun r =>
            (r.1, ⟨some (c.1, r.2), if r.2 = .pushReturned c.2 true then .routed u ev c
              else .dropped u ev⟩)
        else some (m, ⟨none, .dropped u ev⟩)

/-- The loop of `poll_rx` goes on after this `recv`: it gave bytes, and they did not end a frame of
another type. -/
def Mesh.drains (m : Mesh ν κ cfg) (c : κ × Side) (answers : Answers) : Bool :=
  let l := m.links c.1
  let r := (l.ends c.2).pollRx anyDomain [answers.recv] [answers.canMake] (l.arrived c.2)
  0 < r.taken && !r.mismatch

/-- The next access of the thread inside `node_runtime::run`. -/
def nodeStep (m : Mesh ν κ cfg) (u : ν) (answers : Answers) :
    Option (Mesh ν κ cfg × MeshEvent ν κ cfg) :=
  let r := (m.nodes u).runtime
  match r.pc with
  | .outside => none
  | .start => some (m.setRuntime u { r with isRunning := true, pc := .test }, ⟨none, .none⟩)
  | .test =>
    if r.isRunning then some (m.setPc u (.isAlive 0), ⟨none, .none⟩)
    else some (m.setPc u .outside, ⟨none, .ended u⟩)
  | .isAlive i =>
    match r.bindings[i]? with
    | none => some (m.setPc u .test, ⟨none, .none⟩)
    | some b =>
      if m.isAlive b.conduit then some (m.setPc u (.pollRx i), ⟨none, .visited u i⟩)
      else if b.onDead then some (m.setPc u (.onDead i), ⟨none, .visited u i⟩)
      else some (m.setPc u (.isAlive (i + 1)), ⟨none, .visited u i⟩)
  | .pollRx i =>
    match r.bindings[i]? with
    | none => none
    | some b =>
      (m.call b.conduit (.pollRx b.conduit.2 [answers.recv] [answers.canMake])).map fun s =>
        if m.drains b.conduit answers then
          (s.1.setPc u (.pollRx i), ⟨some (b.conduit.1, s.2), .drained u i⟩)
        else (s.1.setPc u (.pollTx i), ⟨some (b.conduit.1, s.2), .none⟩)
  | .pollTx i =>
    match r.bindings[i]? with
    | none => none
    | some b =>
      (m.call b.conduit (.pollTx b.conduit.2 answers.sends)).map fun s =>
        (s.1.setPc u (.isAlive (i + 1)), ⟨some (b.conduit.1, s.2), .none⟩)
  | .onDead i =>
    match r.bindings[i]? with
    | none => none
    | some b =>
      let done := { r with bindings := r.bindings.set i { b with onDead := false },
                           pc := .isAlive (i + 1) }
      match answers.rebind with
      | none => some (m.setRuntime u done, ⟨none, .died u i⟩)
      | some fd =>
        (m.call b.conduit (.bind b.conduit.2 fd)).map fun s =>
          (s.1.setRuntime u done, ⟨some (b.conduit.1, s.2), .died u i⟩)

def meshStep (maxNodes : ℕ) (target : List UInt8 → ℕ) (m : Mesh ν κ cfg) :
    MeshAction ν κ cfg → Option (Mesh ν κ cfg × MeshEvent ν κ cfg)
  | .bindRoute u nodeId c =>
    if nodeId < maxNodes then some (m.setRoute u nodeId (some c), ⟨none, .none⟩)
    else some (m, ⟨none, .none⟩)
  | .unbindRoute u nodeId =>
    if nodeId < maxNodes then some (m.setRoute u nodeId none, ⟨none, .none⟩)
    else some (m, ⟨none, .none⟩)
  | .on u ev => m.on maxNodes target u ev
  | .connect c fd => (m.call c (.bind c.2 fd)).map fun r => (r.1, ⟨some (c.1, r.2), .none⟩)
  | .callRun u =>
    match (m.nodes u).runtime.pc with
    | .outside => some (m.setPc u .start, ⟨none, .none⟩)
    | _ => none
  | .stop u =>
    some (m.setRuntime u { (m.nodes u).runtime with isRunning := false }, ⟨none, .none⟩)
  | .poll u answers => nodeStep m u answers

/-- Fresh links, routers as constructed, and runtimes with their bindings that no thread has
entered. -/
def meshInit (ring : κ → Side → ℕ → WireFrame cfg) (staging : κ → Side → List UInt8)
    (bindings : ν → List (Binding κ)) : Mesh ν κ cfg where
  links k := linkInit (ring k) (staging k)
  nodes u := ⟨⟨bindings u, false, .outside⟩, fun _ => none⟩

/-- What the orchestrator has to keep to: a route for `nodeId` is a conduit of the node that gets
it, with the node of that number at the other end; and fewer than `2 ^ w` events are sent. -/
def WellWired (home : κ × Side → ν) (nodeId : ν → ℕ) (target : List UInt8 → ℕ)
    (m : Mesh ν κ cfg) : MeshAction ν κ cfg → Prop
  | .bindRoute u id c => home c = u ∧ id = nodeId (home (c.1, c.2.peer))
  | .on u (some ev) =>
    match (m.nodes u).routes (target ev.bytes) with
    | none => True
    | some c => ((m.links c.1).pushed c.2).length + 1 < 2 ^ w
  | _ => True

instance (home : κ × Side → ν) (nodeId : ν → ℕ) (target : List UInt8 → ℕ) (m : Mesh ν κ cfg)
    (a : MeshAction ν κ cfg) : Decidable (WellWired home nodeId target m a) :=
  match a with
  | .bindRoute u id c =>
    inferInstanceAs (Decidable (home c = u ∧ id = nodeId (home (c.1, c.2.peer))))
  | .on _ none => isTrue trivial
  | .on u (some ev) =>
    match h : (m.nodes u).routes (target ev.bytes) with
    | none => isTrue (by simp only [WellWired, h])
    | some c =>
      decidable_of_iff (((m.links c.1).pushed c.2).length + 1 < 2 ^ w) (by simp only [WellWired, h])
  | .unbindRoute _ _ => isTrue trivial
  | .connect _ _ => isTrue trivial
  | .callRun _ => isTrue trivial
  | .stop _ => isTrue trivial
  | .poll _ _ => isTrue trivial

/-! ## The cases of a call and of `on` -/

variable {m m' : Mesh ν κ cfg} {e : MeshEvent ν κ cfg} {maxNodes : ℕ} {target : List UInt8 → ℕ}

omit [DecidableEq ν] in
theorem call_nodes {c : κ × Side} {a : LinkAction cfg} {f : LinkEvent}
    (hs : m.call c a = some (m', f)) : m'.nodes = m.nodes := by
  obtain ⟨⟨l, g⟩, -, he⟩ := Option.map_eq_some_iff.mp hs
  cases he
  rfl

/-- One `push` on a side of a link. -/
theorem linkStep_push (l : Link cfg) (s : Side) (ev : Payload cfg) :
    ∃ l' accepted, linkStep l (.push s (some ev)) = some (l', .pushReturned s accepted) ∧
      l'.pushed = if accepted then Function.update l.pushed s (l.pushed s ++ [ev.bytes])
        else l.pushed :=
  ⟨_, ((l.ends s).push (some ev)).2.1, rfl, rfl⟩

omit [DecidableEq ν] in
/-- What `on` does with an event. -/
theorem on_cases {u : ν} {ev : Payload cfg} (hs : m.on maxNodes target u (some ev) = some (m', e)) :
    (m' = m ∧ e = ⟨none, .dropped u ev⟩) ∨
      ∃ c accepted, (m.nodes u).routes (target ev.bytes) = some c ∧
        m.call c (.push c.2 (some ev)) = some (m', .pushReturned c.2 accepted) ∧
        e = ⟨some (c.1, .pushReturned c.2 accepted),
          if accepted then .routed u ev c else .dropped u ev⟩ := by
  simp only [Mesh.on] at hs
  split_ifs at hs
  · cases hs
    exact .inl ⟨rfl, rfl⟩
  · split at hs
    · cases hs
      exact .inl ⟨rfl, rfl⟩
    · rename_i c hroute
      split_ifs at hs
      · obtain ⟨⟨m₁, f⟩, hcall, he⟩ := Option.map_eq_some_iff.mp hs
        cases he
        obtain ⟨⟨l, g⟩, hl, hf⟩ := Option.map_eq_some_iff.mp hcall
        obtain ⟨l', accepted, hpush, -⟩ := linkStep_push (m.links c.1) c.2 ev
        rw [hpush] at hl
        cases hl
        cases hf
        exact .inr ⟨c, accepted, hroute, hcall, by simp⟩
      · cases hs
        exact .inl ⟨rfl, rfl⟩

end Mesh

end ConduitRuntime.Runtime
