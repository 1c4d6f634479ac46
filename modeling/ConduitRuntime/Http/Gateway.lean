import ConduitRuntime.Http.Grammar
import ConduitRuntime.Ring.Conduit

/-! `http_gateway::accept_loop` between a client and the Core. All requests are received into the
one `read_buffer`, and the events in the conduit hold views into it. One iteration of the loop is
one action; between any two of them the Core may pop an event or give one back to the pool. -/
namespace ConduitRuntime.Http
open ConduitRuntime.Ring
set_option autoImplicit false

/-- `READ_BUFFER_SIZE`. -/
def readBufferSize : ℕ := 65536

/-- The memory after `recv` has put `bytes` at `base`. -/
def store (mem : ℕ → UInt8) (base : ℕ) (bytes : List UInt8) (a : ℕ) : UInt8 :=
  if base ≤ a ∧ a < base + bytes.length then bytes.getD (a - base) 0 else mem a

/-- The gateway, the conduit and the pool of events. `free` is the pool's free list, `events` what
its cells hold, and `held` are the cells the Core has popped and not yet given back. -/
structure Gateway (size : ℕ) where
  isRunning : Bool
  mem : ℕ → UInt8
  free : List ℕ
  events : ℕ → HttpRequestEvent
  coreConduit : Conduit ℕ size
  held : List ℕ

inductive Action
  /-- One iteration: `accept` fails, or it returns a descriptor on which `recv` returns the bytes;
  no bytes stand for `bytes_read <= 0`. -/
  | iterate (client : Option (ℕ × List UInt8))
  | pop
  | deallocate (cell : ℕ)
  | stop
  deriving DecidableEq

/-- What an action does as seen from outside: the answer to the client, or the event that the Core
gets, read through its views at that moment. -/
inductive Outcome
  | noClient
  | closed (clientFd : ℕ)
  | queued (clientFd : ℕ) (bytes : List UInt8)
  | refused (clientFd : ℕ) (response : String)
  | popped (connectionId : ℕ) (message : Message)
  | nothing
  | returned (cell : ℕ)
  | stopped
  deriving DecidableEq

/-! ## The gateway's side -/

def send503 (clientFd : ℕ) : Outcome :=
  .refused clientFd "HTTP/1.1 503 Service Unavailable\r\n\r\n"

def send400 (clientFd : ℕ) : Outcome :=
  .refused clientFd "HTTP/1.1 400 Bad Request\r\n\r\n"

namespace Gateway
variable {size : ℕ}

/-- `memory_pool_.allocate()` constructs the event in the cell it takes. -/
def allocate (s : Gateway size) : Option (ℕ × Gateway size) :=
  match s.free with
  | [] => none
  | cell :: free =>
    some (cell, { s with free, events := Function.update s.events cell (.unset 0) })

def deallocate (s : Gateway size) (cell : ℕ) : Gateway size := { s with free := cell :: s.free }

/-- The branch `bytes_read > 0` of the loop. -/
def serve (base : ℕ) (s : Gateway size) (clientFd : ℕ) (bytes : List UInt8) :
    Gateway size × Outcome :=
  let s := { s with mem := store s.mem base bytes }
  match s.allocate with
  | none => (s, send503 clientFd)
  | some (cell, s) =>
    let (parsed, ev) :=
      parse s.mem base bytes.length { s.events cell with connectionId := clientFd }
    let s := { s with events := Function.update s.events cell ev }
    if parsed then
      let (coreConduit, pushed) := s.coreConduit.push (some cell)
      let s := { s with coreConduit }
      if pushed then (s, .queued clientFd bytes) else (s.deallocate cell, send503 clientFd)
    else (s.deallocate cell, send400 clientFd)

/-- The body of the `while` loop. -/
def iterate (base : ℕ) (s : Gateway size) : Option (ℕ × List UInt8) → Gateway size × Outcome
  | none => (s, .noClient)
  | some (clientFd, bytes) =>
    if bytes = [] then (s, .closed clientFd) else s.serve base clientFd bytes

/-! ## The Core's side -/

def pop (s : Gateway size) : Gateway size × Outcome :=
  let (coreConduit, ev) := s.coreConduit.pop ()
  match ev.ptr with
  | none => (s, .nothing)
  | some cell =>
    ({ s with coreConduit, held := cell :: s.held },
      .popped (s.events cell).connectionId ((s.events cell).message s.mem))

end Gateway

/-- `recv` returns no more bytes than the buffer has room for. -/
def Fits : Option (ℕ × List UInt8) → Prop
  | none => True
  | some (_, bytes) => bytes.length ≤ readBufferSize

instance : ∀ client, Decidable (Fits client)
  | none => .isTrue trivial
  | some (_, bytes) => inferInstanceAs (Decidable (bytes.length ≤ readBufferSize))

def gatewayStep {size : ℕ} (base : ℕ) (s : Gateway size) : Action → Option (Gateway size × Outcome)
  | .iterate client =>
    if s.isRunning ∧ Fits client then some (s.iterate base client) else none
  | .pop => some s.pop
  | .deallocate cell =>
    if cell ∈ s.held then
      some ({ s.deallocate cell with held := s.held.erase cell }, .returned cell)
    else none
  | .stop => some ({ s with isRunning := false }, .stopped)

/-- A started gateway over an empty conduit and a pool of `cells` cells. -/
def gatewayInit {size : ℕ} (hsize : 0 < size) (cells : ℕ) (mem : ℕ → UInt8)
    (events : ℕ → HttpRequestEvent) (ring : ℕ → Option ℕ) : Gateway size :=
  ⟨true, mem, List.range cells, events, Conduit.fresh hsize ring, []⟩

end ConduitRuntime.Http
