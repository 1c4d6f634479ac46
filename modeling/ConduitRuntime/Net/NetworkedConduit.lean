import ConduitRuntime.Foundations.Blocks
import ConduitRuntime.Foundations.MaskedIndex

/-! `networked_conduit<T, Capacity>`: a transmit ring of wire frames drained into a socket, and a
staging frame filled from it. The socket decides how far each `send` and `recv` gets, so a polling
call takes the list of what the socket will answer; a socket with no answer left reports
`EWOULDBLOCK`. -/
namespace ConduitRuntime.Net
open MaskedIndex
set_option autoImplicit false

/-- The template parameters: the bytes of `T::TYPE_ID` as they lie in memory, `sizeof(T)`, and the
capacity with its `static_assert`; `w` is the width of `size_t`. -/
structure Config (w : ℕ) where
  typeId : List UInt8
  typeId_length : typeId.length = 4
  size : ℕ
  capacity : BitVec w
  capacity_pow : capacity &&& (capacity - 1) = 0

theorem sampleTypeId_length : ([9, 0, 0, 0] : List UInt8).length = 4 := rfl

variable {w : ℕ} {cfg : Config w}

/-- `sizeof(wire_frame<T>)`: the type id and the payload, padded to the alignment of 64. -/
def Config.frameSize (cfg : Config w) : ℕ := (4 + cfg.size + 63) / 64 * 64

def Config.mask (cfg : Config w) : BitVec w := cfg.capacity - 1

def Config.slot (cfg : Config w) (i : BitVec w) : ℕ := (i &&& cfg.mask).toNat

theorem Config.header_le_frameSize (cfg : Config w) : 4 + cfg.size ≤ cfg.frameSize := by
  unfold frameSize
  omega

theorem Config.frameSize_pos (cfg : Config w) : 0 < cfg.frameSize := by
  have := cfg.header_le_frameSize
  omega

/-- The bytes of an event of type `T`. -/
structure Payload (cfg : Config w) where
  bytes : List UInt8
  length_eq : bytes.length = cfg.size

structure WireFrame (cfg : Config w) where
  bytes : List UInt8
  length_eq : bytes.length = cfg.frameSize

/-- `frame.type_id = T::TYPE_ID` and the `memcpy` of the payload; the padding stays. -/
def WireFrame.fill (frame : WireFrame cfg) (p : Payload cfg) : WireFrame cfg where
  bytes := cfg.typeId ++ p.bytes ++ frame.bytes.drop (4 + cfg.size)
  length_eq := by
    have := cfg.header_le_frameSize
    simp only [List.length_append, List.length_drop, cfg.typeId_length, p.length_eq,
      frame.length_eq]
    omega

/-- The two fields of a frame as `poll_rx` reads them. -/
def typeIdOf (frame : List UInt8) : List UInt8 := frame.take 4

def payloadOf (cfg : Config w) (frame : List UInt8) : List UInt8 := (frame.drop 4).take cfg.size

theorem typeIdOf_fill (frame : WireFrame cfg) (p : Payload cfg) :
    typeIdOf (frame.fill p).bytes = cfg.typeId := by
  simp [typeIdOf, WireFrame.fill, ← cfg.typeId_length]

theorem payloadOf_fill (frame : WireFrame cfg) (p : Payload cfg) :
    payloadOf cfg (frame.fill p).bytes = p.bytes := by
  simp [payloadOf, WireFrame.fill, ← cfg.typeId_length, ← p.length_eq]

theorem typeIdOf_take (cfg : Config w) (frame : List UInt8) :
    typeIdOf (frame.take cfg.frameSize) = typeIdOf frame := by
  have := cfg.header_le_frameSize
  simp only [typeIdOf, List.take_take]
  congr 1
  omega

theorem payloadOf_take (cfg : Config w) (frame : List UInt8) :
    payloadOf cfg (frame.take cfg.frameSize) = payloadOf cfg frame := by
  have := cfg.header_le_frameSize
  simp only [payloadOf, List.drop_take, List.take_take]
  congr 1
  omega

/-- `sock_fd_` is the number of the connection; no connection has the number 0. -/
structure Endpoint (cfg : Config w) where
  sock : ℕ
  isDead : Bool
  txRing : ℕ → WireFrame cfg
  txHead : BitVec w
  txTail : BitVec w
  txInflight : ℕ
  rxStaging : List UInt8
  rxBytesRead : ℕ

namespace Endpoint

def fresh (txRing : ℕ → WireFrame cfg) (rxStaging : List UInt8) : Endpoint cfg :=
  ⟨0, true, txRing, 0, 0, 0, rxStaging, 0⟩

def bindSocket (e : Endpoint cfg) (fd : ℕ) : Endpoint cfg := { e with sock := fd, isDead := false }

@[simp] theorem bindSocket_txTail (e : Endpoint cfg) (fd : ℕ) :
    (e.bindSocket fd).txTail = e.txTail := rfl

def markDead (e : Endpoint cfg) : Endpoint cfg :=
  if e.isDead then e else { e with isDead := true, rxBytesRead := 0, txInflight := 0 }

/-- `push`: the endpoint, the answer, and what is left in `ev`. -/
def push (e : Endpoint cfg) (ev : Option (Payload cfg)) :
    Endpoint cfg × Bool × Option (Payload cfg) :=
  match e.isDead, ev with
  | false, some p =>
    if cfg.capacity ≤ e.txHead - e.txTail then (e, false, ev)
    else
      let slot := cfg.slot e.txHead
      ({ e with
          txRing := Function.update e.txRing slot ((e.txRing slot).fill p)
          txHead := e.txHead + 1 }, true, none)
  | _, _ => (e, false, ev)

theorem push_none (e : Endpoint cfg) : e.push none = (e, false, none) := by
  unfold push
  cases e.isDead <;> rfl

theorem push_dead {e : Endpoint cfg} (hdead : e.isDead = true) (ev : Option (Payload cfg)) :
    e.push ev = (e, false, ev) := by
  simp only [push, hdead]

theorem push_full {e : Endpoint cfg} (hfull : cfg.capacity ≤ e.txHead - e.txTail)
    (ev : Option (Payload cfg)) : e.push ev = (e, false, ev) := by
  unfold push
  cases e.isDead with
  | true => rfl
  | false =>
    cases ev with
    | none => rfl
    | some p => exact if_pos hfull

theorem push_accepted {e : Endpoint cfg} (halive : e.isDead = false)
    (hroom : ¬ cfg.capacity ≤ e.txHead - e.txTail) (p : Payload cfg) :
    e.push (some p) = ({ e with
      txRing := Function.update e.txRing (cfg.slot e.txHead)
        ((e.txRing (cfg.slot e.txHead)).fill p)
      txHead := e.txHead + 1 }, true, none) := by
  simp only [push, halive, hroom, if_false]

/-- `push` either changes nothing and leaves the event, or stores one frame and takes it. -/
theorem push_cases (e : Endpoint cfg) (ev : Option (Payload cfg)) :
    e.push ev = (e, false, ev) ∨
      ∃ p, ev = some p ∧ e.isDead = false ∧ ¬ cfg.capacity ≤ e.txHead - e.txTail ∧
        e.push ev = ({ e with
          txRing := Function.update e.txRing (cfg.slot e.txHead)
            ((e.txRing (cfg.slot e.txHead)).fill p)
          txHead := e.txHead + 1 }, true, none) := by
  by_cases hdead : e.isDead
  · exact .inl (push_dead hdead ev)
  · have halive : e.isDead = false := Bool.eq_false_of_not_eq_true hdead
    cases ev with
    | none => exact .inl (push_none e)
    | some p =>
      by_cases hfull : cfg.capacity ≤ e.txHead - e.txTail
      · exact .inl (push_full hfull _)
      · exact .inr ⟨p, rfl, halive, hfull, push_accepted halive hfull p⟩

end Endpoint

/-! ## Sending -/

/-- What `send` answers: some bytes, at least one and at most what was asked for, or an error. -/
inductive SendOutcome
  | sent (n : ℕ)
  | wouldBlock
  | failed

structure TxResult (cfg : Config w) where
  endpoint : Endpoint cfg
  tail : BitVec w
  data : List UInt8

/-- The loop of `poll_tx`; `data` collects the bytes the socket took. -/
def txLoop (head : BitVec w) : List SendOutcome → Endpoint cfg → BitVec w → TxResult cfg
  | [], e, tail => ⟨e, tail, []⟩
  | outcome :: rest, e, tail =>
    if tail < head then
      match outcome with
      | .sent n =>
        let bytesToSend := cfg.frameSize - e.txInflight
        let bytesSent := max 1 (min n bytesToSend)
        let data := ((e.txRing (cfg.slot tail)).bytes.drop e.txInflight).take bytesSent
        let offset := e.txInflight + bytesSent
        let r :=
          if offset = cfg.frameSize then txLoop head rest { e with txInflight := 0 } (tail + 1)
          else txLoop head rest { e with txInflight := offset } tail
        { r with data := data ++ r.data }
      | .wouldBlock => ⟨e, tail, []⟩
      | .failed => ⟨e.markDead, tail, []⟩
    else ⟨e, tail, []⟩

def Endpoint.pollTx (e : Endpoint cfg) (outcomes : List SendOutcome) :
    Endpoint cfg × List UInt8 :=
  if e.isDead then (e, [])
  else
    let r := txLoop e.txHead outcomes e e.txTail
    ({ r.endpoint with txTail := r.tail }, r.data)

/-! ## Receiving -/

inductive RecvOutcome
  | got (n : ℕ)
  | wouldBlock
  | closed
  | failed

/-- `local_domain` and `local_sink` of `poll_rx`, on the state `P` that they share. `make` gives an
event `E` or none; `on` is the rest of the block that has the event: its bytes are set, the sink is
called, and what the sink leaves is freed. -/
structure DomainSink (P E : Type) where
  make : P → Option E × P
  on : E → List UInt8 → P → P

/-- Any domain: `make` succeeds or fails as the list says. -/
def anyDomain : DomainSink (List Bool) Unit where
  make answers := (if answers.headD false then some () else none, answers.tail)
  on _ _ answers := answers

/-- What a completed frame led to: whether an event was made, and what the sink was handed. -/
structure Dispatch (P : Type) where
  domain : P
  made : Bool
  handed : List (List UInt8)

def DomainSink.dispatch {P E : Type} (d : DomainSink P E) (payload : List UInt8) (p : P) :
    Dispatch P :=
  match d.make p with
  | (none, p) => ⟨p, false, []⟩
  | (some ev, p) => ⟨d.on ev payload p, true, [payload]⟩

theorem DomainSink.dispatch_handed {P E : Type} (d : DomainSink P E) (payload : List UInt8)
    (p : P) :
    (d.dispatch payload p).handed = if (d.dispatch payload p).made then [payload] else [] := by
  unfold dispatch
  rcases d.make p with ⟨_ | ev, p⟩ <;> rfl

/-- `frames` are the payloads of the completed frames, each with whether `make` gave an event, and
`handed` are the payloads that `local_sink.on` was called with. -/
structure RxResult (cfg : Config w) (P : Type) where
  endpoint : Endpoint cfg
  domain : P
  taken : ℕ
  frames : List (List UInt8 × Bool)
  handed : List (List UInt8)
  mismatch : Bool

/-- `recv` of the bytes `data` into the staging frame. -/
def Endpoint.stage (e : Endpoint cfg) (data : List UInt8) : List UInt8 :=
  e.rxStaging.take e.rxBytesRead ++ data ++ e.rxStaging.drop (e.rxBytesRead + data.length)

/-- The loop of `poll_rx`; `arrived` are the bytes waiting in the socket. -/
def rxLoop {P E : Type} (d : DomainSink P E) :
    List RecvOutcome → Endpoint cfg → P → List UInt8 → RxResult cfg P
  | [], e, p, _ => ⟨e, p, 0, [], [], false⟩
  | .wouldBlock :: _, e, p, _ => ⟨e, p, 0, [], [], false⟩
  | .closed :: _, e, p, _ => ⟨e.markDead, p, 0, [], [], false⟩
  | .failed :: _, e, p, _ => ⟨e.markDead, p, 0, [], [], false⟩
  | .got n :: rest, e, p, arrived =>
    if arrived = [] then ⟨e, p, 0, [], [], false⟩
    else
      let bytesToRead := cfg.frameSize - e.rxBytesRead
      let bytesRead := max 1 (min n (min bytesToRead arrived.length))
      let staging := e.stage (arrived.take bytesRead)
      let count := e.rxBytesRead + bytesRead
      let e' := { e with rxStaging := staging, rxBytesRead := count }
      if count = cfg.frameSize then
        if typeIdOf staging ≠ cfg.typeId then ⟨e'.markDead, p, bytesRead, [], [], true⟩
        else
          let payload := payloadOf cfg staging
          let sunk := d.dispatch payload p
          let r := rxLoop d rest { e' with rxBytesRead := 0 } sunk.domain (arrived.drop bytesRead)
          { r with
            taken := bytesRead + r.taken
            frames := (payload, sunk.made) :: r.frames
            handed := sunk.handed ++ r.handed }
      else
        let r := rxLoop d rest e' p (arrived.drop bytesRead)
        { r with taken := bytesRead + r.taken }

def Endpoint.pollRx {P E : Type} (e : Endpoint cfg) (d : DomainSink P E)
    (outcomes : List RecvOutcome) (p : P) (arrived : List UInt8) : RxResult cfg P :=
  if e.isDead then ⟨e, p, 0, [], [], false⟩ else rxLoop d outcomes e p arrived

end ConduitRuntime.Net
