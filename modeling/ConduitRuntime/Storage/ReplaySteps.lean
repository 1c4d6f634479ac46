import ConduitRuntime.Foundations.Execution
import ConduitRuntime.Ring.EventPipe
import ConduitRuntime.Storage.DurableLog

/-! `durable_source::run_replay` against a Core that may be slow: the pool may have no cell, the
conduit may be full, and `stop` may be called at any time. The domain and the conduit are parameters
of the template and of the model; `make_uninitialized` is its `make`. The file is complete before
the replay, and `read` does not fail. -/
namespace ConduitRuntime.Storage
open Execution ConduitRuntime.Ring
set_option autoImplicit false

/-- Where the I/O thread is inside `run_replay`, with the event it has. A record is in the event at
`push` and at `waiting`, after a `push` that was refused; `finish` is the store behind the loop,
with the reason of a `break`. -/
inductive ReplayPc (E : Type)
  | outside
  | checkFd
  | setRunning
  | test
  | make
  | read (ev : E)
  | push (ev : Option E) (buffer : List UInt8)
  | waiting (ev : Option E) (buffer : List UInt8)
  | finish (reason : Option ReplayEnd)

/-- `unread` is the file behind its offset, and `held` the events that the Core has popped and not
dropped yet. -/
structure ReplaySystem (P E : Type) where
  fd : ℤ
  unread : List UInt8
  isRunning : Bool
  pc : ReplayPc E
  core : P
  held : List E

inductive ReplayAction (E : Type)
  | callRun
  | io
  | stop
  | pop
  | drop (ev : E)

/-- `retried` is a `make` or a `push` that failed. -/
inductive ReplayEvent
  | silent
  | retried
  | read (buffer : List UInt8)
  | pushed (buffer : List UInt8)
  | lost (buffer : List UInt8)
  | ended (reason : Option ReplayEnd)
  | stopped
  | popped (buffer : List UInt8)
  deriving DecidableEq

section Replay
variable {P E : Type} (pipe : EventPipe P E (List UInt8)) (size : ℕ)

/-- One access of the I/O thread, for events of `size` bytes. -/
def replayIo (s : ReplaySystem P E) : Option (ReplaySystem P E × ReplayEvent) :=
  match s.pc with
  | .outside => none
  | .checkFd =>
    if s.fd = -1 then some ({ s with pc := .outside }, .ended (some .notOpen))
    else some ({ s with pc := .setRunning }, .silent)
  | .setRunning => some ({ s with isRunning := true, pc := .test }, .silent)
  | .test =>
    if s.isRunning then some ({ s with pc := .make }, .silent)
    else some ({ s with pc := .finish none }, .silent)
  | .make =>
    match pipe.make s.core with
    | (none, p) => some ({ s with core := p, pc := .test }, .retried)
    | (some ev, p) => some ({ s with core := p, pc := .read ev }, .silent)
  | .read ev =>
    let buffer := s.unread.take size
    let bytesRead := toInt buffer.length
    let after := { s with unread := s.unread.drop size }
    -- after a `break` the event goes out of scope
    let closed := pipe.close s.core (some ev)
    if equalsSize bytesRead size then
      some ({ after with pc := .push (some ev) buffer }, .read buffer)
    else if bytesRead = 0 then
      some ({ after with core := closed, pc := .finish (some .endOfFile) }, .silent)
    else some ({ after with core := closed, pc := .finish (some .corruptedRead) }, .silent)
  | .push ev buffer =>
    match pipe.push s.core ev buffer with
    | (true, rest, p) => some ({ s with core := pipe.close p rest, pc := .test }, .pushed buffer)
    | (false, rest, p) => some ({ s with core := p, pc := .waiting rest buffer }, .retried)
  | .waiting ev buffer =>
    if s.isRunning then some ({ s with pc := .push ev buffer }, .silent)
    else some ({ s with core := pipe.close s.core ev, pc := .test }, .lost buffer)
  | .finish reason => some ({ s with isRunning := false, pc := .outside }, .ended reason)

def replayStep [DecidableEq E] (s : ReplaySystem P E) :
    ReplayAction E → Option (ReplaySystem P E × ReplayEvent)
  | .callRun =>
    match s.pc with
    | .outside => some ({ s with pc := .checkFd }, .silent)
    | _ => none
  | .io => replayIo pipe size s
  | .stop => some ({ s with isRunning := false }, .stopped)
  | .pop =>
    match pipe.pop s.core with
    | (none, p) => some ({ s with core := p }, .silent)
    | (some (ev, buffer), p) => some ({ s with core := p, held := ev :: s.held }, .popped buffer)
  | .drop ev =>
    if ev ∈ s.held then
      some ({ s with core := pipe.drop s.core ev, held := s.held.erase ev }, .silent)
    else none

end Replay

def replayInit {P E : Type} (fd : ℤ) (file : List UInt8) (p : P) : ReplaySystem P E where
  fd := fd
  unread := file
  isRunning := false
  pc := .outside
  core := p
  held := []

/-! ## What a run shows -/

def ReplayEvent.read? : ReplayEvent → Option (List UInt8)
  | .read buffer => some buffer
  | _ => none

/-- A record that has left the thread's hands, and whether the conduit got it. -/
def ReplayEvent.settled? : ReplayEvent → Option (List UInt8 × Bool)
  | .pushed buffer => some (buffer, true)
  | .lost buffer => some (buffer, false)
  | _ => none

def ReplayEvent.popped? : ReplayEvent → Option (List UInt8)
  | .popped buffer => some buffer
  | _ => none

def readRecords (es : List ReplayEvent) : List (List UInt8) := es.filterMap ReplayEvent.read?

def settledRecords (es : List ReplayEvent) : List (List UInt8 × Bool) :=
  es.filterMap ReplayEvent.settled?

def pushedRecords (es : List ReplayEvent) : List (List UInt8) :=
  ((settledRecords es).filter Prod.snd).map Prod.fst

def lostRecords (es : List ReplayEvent) : List (List UInt8) :=
  ((settledRecords es).filter fun r => !r.2).map Prod.fst

def poppedRecords (es : List ReplayEvent) : List (List UInt8) := es.filterMap ReplayEvent.popped?

def stopCalls (es : List ReplayEvent) : ℕ := es.count .stopped

def ReplayPc.inHand {E : Type} : ReplayPc E → List (List UInt8)
  | .push _ buffer => [buffer]
  | .waiting _ buffer => [buffer]
  | _ => []

/-- The event that the thread has. -/
def ReplayPc.event {E : Type} : ReplayPc E → Option E
  | .read ev => some ev
  | .push ev _ => ev
  | .waiting ev _ => ev
  | _ => none

end ConduitRuntime.Storage
