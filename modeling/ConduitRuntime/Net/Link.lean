import ConduitRuntime.Foundations.Execution
import ConduitRuntime.Net.NetworkedConduit

/-! Two networked conduits of one type, joined by successive connections. A connection is a
reliable byte stream in each direction: what arrives is a prefix of what was sent, and the rest of a
failed connection is never delivered. Each side binds only while it is dead, and only to a
connection later than all it had before. -/
namespace ConduitRuntime.Net
set_option autoImplicit false

inductive Side
  | a
  | b
  deriving DecidableEq, Repr

def Side.peer : Side → Side
  | .a => .b
  | .b => .a

@[simp] theorem Side.peer_peer (s : Side) : s.peer.peer = s := by cases s <;> rfl

theorem Side.peer_ne (s : Side) : s.peer ≠ s := by cases s <;> simp [peer]

theorem Side.eq_peer {s t : Side} (h : s ≠ t) : s = t.peer := by
  cases s <;> cases t <;> simp_all [peer]

/-- A frame completed by `poll_rx`: on which connection, its payload, and whether `make` gave an
event for it. -/
structure Received where
  connection : ℕ
  payload : List UInt8
  made : Bool

def onConnection (k : ℕ) (received : List Received) : List Received :=
  received.filter fun r => r.connection = k

variable {w : ℕ} {cfg : Config w}

/-- `stream s k` is what side `s` has sent on connection `k`, and `taken s k` how much of it the
peer has received. The last four fields are history: the bytes of the events pushed successfully
on `s`, `tx_tail_` at the time `s` bound `k`, the frames completed at `s`, and what its sink was
handed, each with the connection. -/
structure Link (cfg : Config w) where
  ends : Side → Endpoint cfg
  stream : Side → ℕ → List UInt8
  taken : Side → ℕ → ℕ
  pushed : Side → List (List UInt8)
  start : Side → ℕ → ℕ
  received : Side → List Received
  handed : Side → List (ℕ × List UInt8)

/-- `pollRx` comes with the answers of `recv` and those of `make`. -/
inductive LinkAction (cfg : Config w)
  | bind (s : Side) (k : ℕ)
  | push (s : Side) (ev : Option (Payload cfg))
  | pollTx (s : Side) (outcomes : List SendOutcome)
  | pollRx (s : Side) (outcomes : List RecvOutcome) (answers : List Bool)

inductive LinkEvent
  | bound (s : Side)
  | pushReturned (s : Side) (accepted : Bool)
  | txPolled (s : Side)
  | rxPolled (s : Side) (mismatch : Bool)
  deriving DecidableEq, Repr

def Link.setEnd (l : Link cfg) (s : Side) (e : Endpoint cfg) : Link cfg :=
  { l with ends := Function.update l.ends s e }

/-- Bytes that have arrived at a side and wait in its socket. -/
def Link.arrived (l : Link cfg) (s : Side) : List UInt8 :=
  (l.stream s.peer (l.ends s).sock).drop (l.taken s.peer (l.ends s).sock)

def Link.polled {P : Type} (l : Link cfg) (s : Side) (r : RxResult cfg P) : Link cfg :=
  let k := (l.ends s).sock
  { l.setEnd s r.endpoint with
    taken := Function.update l.taken s.peer
      (Function.update (l.taken s.peer) k (l.taken s.peer k + r.taken))
    received := Function.update l.received s
      (l.received s ++ r.frames.map fun f => ⟨k, f.1, f.2⟩)
    handed := Function.update l.handed s (l.handed s ++ r.handed.map fun p => (k, p)) }

def linkStep (l : Link cfg) : LinkAction cfg → Option (Link cfg × LinkEvent)
  | .bind s k =>
    if (l.ends s).isDead = true ∧ (l.ends s).sock < k then
      some ({ l.setEnd s ((l.ends s).bindSocket k) with
        start := Function.update l.start s
          (Function.update (l.start s) k (l.ends s).txTail.toNat) }, .bound s)
    else none
  | .push s ev =>
    let (e, accepted, _) := (l.ends s).push ev
    let bytes := ev.toList.map Payload.bytes
    some ({ l.setEnd s e with
      pushed := if accepted then Function.update l.pushed s (l.pushed s ++ bytes)
        else l.pushed }, .pushReturned s accepted)
  | .pollTx s outcomes =>
    let (e, data) := (l.ends s).pollTx outcomes
    let k := (l.ends s).sock
    some ({ l.setEnd s e with
      stream := Function.update l.stream s
        (Function.update (l.stream s) k (l.stream s k ++ data)) }, .txPolled s)
  | .pollRx s outcomes answers =>
    let r := (l.ends s).pollRx anyDomain outcomes answers (l.arrived s)
    some (l.polled s r, .rxPolled s r.mismatch)

def linkInit (ring : Side → ℕ → WireFrame cfg) (staging : Side → List UInt8) : Link cfg where
  ends s := .fresh (ring s) (staging s)
  stream _ _ := []
  taken _ _ := 0
  pushed _ := []
  start _ _ := 0
  received _ := []
  handed _ := []

/-- Fewer than `2 ^ w` pushes are accepted. -/
def FewPushes (l : Link cfg) : LinkAction cfg → Prop
  | .push s _ => (l.pushed s).length + 1 < 2 ^ w
  | _ => True

instance (l : Link cfg) (a : LinkAction cfg) : Decidable (FewPushes l a) :=
  match a with
  | .push s _ => inferInstanceAs (Decidable ((l.pushed s).length + 1 < 2 ^ w))
  | .bind _ _ => isTrue trivial
  | .pollTx _ _ => isTrue trivial
  | .pollRx _ _ _ => isTrue trivial

def Link.receivedOn (l : Link cfg) (s : Side) (k : ℕ) : List Received :=
  onConnection k (l.received s)

/-- The payloads handed to the sink of side `s`, oldest first. -/
def Link.handedEvents (l : Link cfg) (s : Side) : List (List UInt8) := (l.handed s).map Prod.snd

def Link.handedOn (l : Link cfg) (s : Side) (k : ℕ) : List (List UInt8) :=
  ((l.handed s).filter fun x => x.1 = k).map Prod.snd

end ConduitRuntime.Net
