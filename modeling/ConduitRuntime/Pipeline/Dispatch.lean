import ConduitRuntime.Memory.EventPtr

/-! `pipeline<Handlers...>::dispatch`. An event type is a tree: the type and its `base_types`, each
with bases of its own. An overload `on(event_ptr<X>&)` of a handler is any function of the world and
of the pointer it is given; handlers below the event's own type are given a temporary view that does
not own the event. -/
namespace ConduitRuntime.Pipeline
open Memory
set_option autoImplicit false

inductive TypeTree (T : Type)
  | node (type : T) (bases : List (TypeTree T))

def TypeTree.root {T : Type} : TypeTree T → T
  | .node type _ => type

variable {σ A C H T : Type}

/-- What `h.on(ev)` does to the world and to its pointer, and what it returns; an overload that
returns `void` is one that always answers `true`. -/
def Overload (σ A C : Type) : Type := σ → EventPtr A C → σ × EventPtr A C × Bool

/-- The overloads of the handlers, and what a deleter does to the world. -/
structure Handlers (σ A C H T : Type) where
  on : H → T → Option (Overload σ A C)
  delete : σ → Option C × A → σ

/-- A call that was made: on which handler, for which type, with which pointer, what it returned
and whether it left its pointer null. -/
structure Call (A H T : Type) where
  handler : H
  type : T
  ptr : Option A
  returned : Bool
  leftNull : Bool

/-- The world, the event pointer being dispatched, and the calls made so far. -/
structure Run (σ A C H T : Type) where
  world : σ
  ev : EventPtr A C
  calls : List (Call A H T)

section Dispatch
variable (P : Handlers σ A C H T)

/-- The destructor of an `event_ptr`. -/
def destroy (w : σ) (p : EventPtr A C) : σ :=
  match p.reset.2 with
  | none => w
  | some call => P.delete w call

/-- `call_on_if_exists`: the world, the pointer, the calls made and the answer. -/
def callOnIfExists (h : H) (t : T) (w : σ) (p : EventPtr A C) :
    σ × EventPtr A C × List (Call A H T) × Bool :=
  match P.on h t with
  | none => (w, p, [], true)
  | some f =>
    let (w', p', returned) := f w p
    (w', p', [⟨h, t, p.ptr, returned, p'.ptr.isNone⟩], returned)

variable [DecidableEq T]

mutual
/-- `traverse_and_call<Handler, Event, CurrentType>`. -/
def traverseAndCall (h : H) (event : T) : TypeTree T → Run σ A C H T → Run σ A C H T × Bool
  | .node current bases, s =>
    let (s, proceed) := traverseBases h event bases s
    if proceed && s.ev.ptr.isSome then
      if event = current then
        let (w, ev, made, proceed) := callOnIfExists P h current s.world s.ev
        (⟨w, ev, s.calls ++ made⟩, proceed && ev.ptr.isSome)
      else
        let (w, baseView, made, proceed) := callOnIfExists P h current s.world s.ev.nonOwning
        let (ev, proceed) :=
          if baseView.ptr.isNone then (s.ev.release.1, false) else (s.ev, proceed)
        (⟨destroy P w baseView, ev, s.calls ++ made⟩, proceed && ev.ptr.isSome)
    else (s, proceed && s.ev.ptr.isSome)
/-- The fold over `base_types`. -/
def traverseBases (h : H) (event : T) :
    List (TypeTree T) → Run σ A C H T → Run σ A C H T × Bool
  | [], s => (s, true)
  | t :: ts, s =>
    let (s, proceed) := traverseAndCall h event t s
    if proceed && s.ev.ptr.isSome then traverseBases h event ts s else (s, false)
end

/-- The fold over the handlers. -/
def dispatchAll (tree : TypeTree T) : List H → Run σ A C H T → Run σ A C H T × Bool
  | [], s => (s, true)
  | h :: hs, s =>
    let (s, proceed) := traverseAndCall P h tree.root tree s
    if proceed then dispatchAll tree hs s else (s, false)

/-- `dispatch(event_ptr<Event>&)`. -/
def dispatch (tree : TypeTree T) (handlers : List H) (s : Run σ A C H T) : Run σ A C H T :=
  if s.ev.ptr.isNone then s else (dispatchAll P tree handlers s).1

/-- `dispatch(event_ptr<Event>&&)`: the event moves into a local handle, which is destroyed at the
end; the caller keeps a cleared handle. -/
def dispatchMove (tree : TypeTree T) (handlers : List H) (s : Run σ A C H T) : Run σ A C H T :=
  let (localEv, rest) := s.ev.moveConstruct
  let s' := dispatch P tree handlers { s with ev := localEv }
  ⟨destroy P s'.world s'.ev, rest, s'.calls⟩

/-- `bound_sink::handle(event_ptr<Event>)`: the parameter is constructed by a move and destroyed on
return. -/
def boundSinkHandle (tree : TypeTree T) (handlers : List H) (s : Run σ A C H T) :
    Run σ A C H T :=
  let (param, rest) := s.ev.moveConstruct
  let s' := { s with ev := param }
  let s' := if s'.ev.ptr.isSome then dispatch P tree handlers s' else s'
  ⟨destroy P s'.world s'.ev, rest, s'.calls⟩

end Dispatch

end ConduitRuntime.Pipeline
