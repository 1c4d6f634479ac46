import ConduitRuntime.Foundations.Execution
import ConduitRuntime.Net.NetworkedConduit

/-! The transmit ring of a `networked_conduit` shared by a producer thread that runs `push` and a
poll thread that runs `poll_tx` and `bind_socket`, one load, store, slot write or `send` at a time.
Connections are numbered in the order in which they are bound. -/
namespace ConduitRuntime.Net
open Execution
set_option autoImplicit false

variable {w : ℕ} {cfg : Config w}

/-! ## The two writes of a slot -/

/-- `frame.type_id = T::TYPE_ID`. -/
def WireFrame.setTypeId (frame : WireFrame cfg) : WireFrame cfg where
  bytes := cfg.typeId ++ frame.bytes.drop 4
  length_eq := by
    have := cfg.header_le_frameSize
    simp only [List.length_append, List.length_drop, cfg.typeId_length, frame.length_eq]
    omega

/-- `std::memcpy(frame.payload, ev.get(), sizeof(T))`. -/
def WireFrame.setPayload (frame : WireFrame cfg) (p : Payload cfg) : WireFrame cfg where
  bytes := frame.bytes.take 4 ++ p.bytes ++ frame.bytes.drop (4 + cfg.size)
  length_eq := by
    have := cfg.header_le_frameSize
    simp only [List.length_append, List.length_take, List.length_drop, p.length_eq,
      frame.length_eq]
    omega

theorem WireFrame.setTypeId_take (frame : WireFrame cfg) :
    frame.setTypeId.bytes.take 4 = cfg.typeId := by
  rw [setTypeId, List.take_append_of_le_length cfg.typeId_length.ge, ← cfg.typeId_length,
    List.take_length]

theorem WireFrame.setTypeId_drop (frame : WireFrame cfg) :
    frame.setTypeId.bytes.drop (4 + cfg.size) = frame.bytes.drop (4 + cfg.size) :=
  calc frame.setTypeId.bytes.drop (4 + cfg.size)
      = (frame.setTypeId.bytes.drop 4).drop cfg.size := List.drop_drop.symm
    _ = (frame.bytes.drop 4).drop cfg.size :=
        congrArg (List.drop cfg.size) (List.drop_left' cfg.typeId_length)
    _ = frame.bytes.drop (4 + cfg.size) := List.drop_drop

theorem WireFrame.fill_eq (frame : WireFrame cfg) (p : Payload cfg) :
    frame.setTypeId.setPayload p = frame.fill p := by
  simp only [setPayload, fill, setTypeId_take, setTypeId_drop]

/-! ## The machine -/

/-- Where the producer is inside `push(ev)`. -/
inductive ProducerPc (cfg : Config w)
  | idle
  | loadDead (ev : Option (Payload cfg))
  | loadHead (p : Payload cfg)
  | loadTail (p : Payload cfg) (head : BitVec w)
  | writeTypeId (p : Payload cfg) (head : BitVec w)
  | writePayload (p : Payload cfg) (head : BitVec w)
  | storeHead (p : Payload cfg) (head : BitVec w)

/-- Where the poll thread is inside `poll_tx()`, `mark_dead()` or `bind_socket(fd)`. -/
inductive PollPc (w : ℕ)
  | idle
  | loadDead
  | loadTail
  | loadHead (tail : BitVec w)
  | send (tail head : BitVec w)
  | exchangeDead (tail : BitVec w)
  | resetRx (tail : BitVec w)
  | resetTx (tail : BitVec w)
  | storeTail (tail : BitVec w)
  | storeSocket
  | storeAlive

structure TxSystem (cfg : Config w) where
  endpoint : Endpoint cfg
  producer : ProducerPc cfg
  poller : PollPc w

inductive TxAction (cfg : Config w)
  | callPush (ev : Option (Payload cfg))
  | callPollTx
  | callBindSocket
  | producer
  | poller
  | send (outcome : SendOutcome)

/-- What a step shows: the frame whose push stores `tx_head_`, or the bytes a connection takes. -/
inductive TxEvent (cfg : Config w)
  | silent
  | rejected
  | pushed (p : Payload cfg) (frame : WireFrame cfg)
  | sent (sock : ℕ) (data : List UInt8)

/-- `while (tail < head)`. -/
def pollAgain (tail head : BitVec w) : PollPc w :=
  if tail < head then .send tail head else .storeTail tail

def Endpoint.writeSlot (e : Endpoint cfg) (i : BitVec w)
    (write : WireFrame cfg → WireFrame cfg) : Endpoint cfg :=
  { e with txRing := Function.update e.txRing (cfg.slot i) (write (e.txRing (cfg.slot i))) }

def producerStep (s : TxSystem cfg) : Option (TxSystem cfg × TxEvent cfg) :=
  match s.producer with
  | .idle => none
  | .loadDead none => some ({ s with producer := .idle }, .rejected)
  | .loadDead (some p) =>
    if s.endpoint.isDead then some ({ s with producer := .idle }, .rejected)
    else some ({ s with producer := .loadHead p }, .silent)
  | .loadHead p => some ({ s with producer := .loadTail p s.endpoint.txHead }, .silent)
  | .loadTail p head =>
    if cfg.capacity ≤ head - s.endpoint.txTail then some ({ s with producer := .idle }, .rejected)
    else some ({ s with producer := .writeTypeId p head }, .silent)
  | .writeTypeId p head =>
    some ({ s with
      endpoint := s.endpoint.writeSlot head .setTypeId, producer := .writePayload p head }, .silent)
  | .writePayload p head =>
    some ({ s with
      endpoint := s.endpoint.writeSlot head (·.setPayload p), producer := .storeHead p head },
      .silent)
  | .storeHead p head =>
    some ({ s with endpoint := { s.endpoint with txHead := head + 1 }, producer := .idle },
      .pushed p (s.endpoint.txRing (cfg.slot head)))

def pollerStep (s : TxSystem cfg) : Option (TxSystem cfg × TxEvent cfg) :=
  match s.poller with
  | .idle | .send _ _ => none
  | .loadDead =>
    some ({ s with poller := if s.endpoint.isDead then .idle else .loadTail }, .silent)
  | .loadTail => some ({ s with poller := .loadHead s.endpoint.txTail }, .silent)
  | .loadHead tail => some ({ s with poller := pollAgain tail s.endpoint.txHead }, .silent)
  | .exchangeDead tail =>
    if s.endpoint.isDead then some ({ s with poller := .storeTail tail }, .silent)
    else some ({ s with
      endpoint := { s.endpoint with isDead := true }, poller := .resetRx tail }, .silent)
  | .resetRx tail =>
    some ({ s with
      endpoint := { s.endpoint with rxBytesRead := 0 }, poller := .resetTx tail }, .silent)
  | .resetTx tail =>
    some ({ s with
      endpoint := { s.endpoint with txInflight := 0 }, poller := .storeTail tail }, .silent)
  | .storeTail tail =>
    some ({ s with endpoint := { s.endpoint with txTail := tail }, poller := .idle }, .silent)
  | .storeSocket =>
    some ({ s with
      endpoint := { s.endpoint with sock := s.endpoint.sock + 1 }, poller := .storeAlive }, .silent)
  | .storeAlive =>
    some ({ s with endpoint := { s.endpoint with isDead := false }, poller := .idle }, .silent)

/-- The call of `send` and what the loop does with its answer. -/
def sendStep (s : TxSystem cfg) (outcome : SendOutcome) : Option (TxSystem cfg × TxEvent cfg) :=
  match s.poller with
  | .send tail head =>
    match outcome with
    | .sent n =>
      let e := s.endpoint
      let bytesToSend := cfg.frameSize - e.txInflight
      let bytesSent := max 1 (min n bytesToSend)
      let data := ((e.txRing (cfg.slot tail)).bytes.drop e.txInflight).take bytesSent
      let offset := e.txInflight + bytesSent
      some (if offset = cfg.frameSize then
          { s with endpoint := { e with txInflight := 0 }, poller := pollAgain (tail + 1) head }
        else { s with endpoint := { e with txInflight := offset }, poller := pollAgain tail head },
        .sent e.sock data)
    | .wouldBlock => some ({ s with poller := .storeTail tail }, .silent)
    | .failed => some ({ s with poller := .exchangeDead tail }, .silent)
  | _ => none

/-- One step; a call starts only when its thread is idle, and `bind_socket` only when the conduit is
dead. -/
def txStep (s : TxSystem cfg) : TxAction cfg → Option (TxSystem cfg × TxEvent cfg)
  | .callPush ev =>
    match s.producer with
    | .idle => some ({ s with producer := .loadDead ev }, .silent)
    | _ => none
  | .callPollTx =>
    match s.poller with
    | .idle => some ({ s with poller := .loadDead }, .silent)
    | _ => none
  | .callBindSocket =>
    match s.poller, s.endpoint.isDead with
    | .idle, true => some ({ s with poller := .storeSocket }, .silent)
    | _, _ => none
  | .producer => producerStep s
  | .poller => pollerStep s
  | .send outcome => sendStep s outcome

def txInit (txRing : ℕ → WireFrame cfg) (rxStaging : List UInt8) : TxSystem cfg :=
  ⟨.fresh txRing rxStaging, .idle, .idle⟩

/-! ## What a run shows -/

def TxEvent.pushed? : TxEvent cfg → Option (WireFrame cfg)
  | .pushed _ frame => some frame
  | _ => none

/-- The frames whose push stored `tx_head_`, in order. -/
def pushedFrames (es : List (TxEvent cfg)) : List (WireFrame cfg) := es.filterMap TxEvent.pushed?

def TxEvent.bytesOn (k : ℕ) : TxEvent cfg → List UInt8
  | .sent sock data => if sock = k then data else []
  | _ => []

/-- The bytes that connection `k` took. -/
def streamOf (es : List (TxEvent cfg)) (k : ℕ) : List UInt8 := es.flatMap (TxEvent.bytesOn k)

theorem pushedFrames_snoc (es : List (TxEvent cfg)) (e : TxEvent cfg) :
    pushedFrames (es ++ [e]) = pushedFrames es ++ e.pushed?.toList := filterMap_snoc _ es e

theorem streamOf_snoc (es : List (TxEvent cfg)) (e : TxEvent cfg) (k : ℕ) :
    streamOf (es ++ [e]) k = streamOf es k ++ e.bytesOn k := by
  simp [streamOf]

/-! ## Whole calls are their steps run alone -/

/-- A run in which nothing is promised. -/
abbrev TxRun (s : TxSystem cfg) (es : List (TxEvent cfg)) (t : TxSystem cfg) : Prop :=
  Exec txStep (fun _ _ => True) s es t

theorem TxRun.step {s t u : TxSystem cfg} {es : List (TxEvent cfg)} (h : TxRun s es t)
    (a : TxAction cfg) {e : TxEvent cfg} (hs : txStep t a = some (u, e)) : TxRun s (es ++ [e]) u :=
  Exec.snoc h trivial hs

theorem writeSlot_fill (e : Endpoint cfg) (i : BitVec w) (p : Payload cfg) :
    (e.writeSlot i .setTypeId).writeSlot i (·.setPayload p) = e.writeSlot i (·.fill p) := by
  simp only [Endpoint.writeSlot, Function.update_self, Function.update_idem, WireFrame.fill_eq]

/-- From the load of `tx_tail_` on, with room in the ring. -/
theorem store_steps (e : Endpoint cfg) (poller : PollPc w) (p : Payload cfg)
    (hroom : ¬ cfg.capacity ≤ e.txHead - e.txTail) :
    TxRun ⟨e, .loadTail p e.txHead, poller⟩
      [.silent, .silent, .silent, .pushed p ((e.txRing (cfg.slot e.txHead)).fill p)]
      ⟨{ e.writeSlot e.txHead (·.fill p) with txHead := e.txHead + 1 }, .idle, poller⟩ := by
  have h1 : TxRun ⟨e, .loadTail p e.txHead, poller⟩ [.silent]
      ⟨e, .writeTypeId p e.txHead, poller⟩ :=
    TxRun.step .nil .producer (by simp [txStep, producerStep, hroom])
  have h2 := h1.step .producer (u := ⟨e.writeSlot e.txHead .setTypeId, .writePayload p e.txHead,
    poller⟩) (e := .silent) rfl
  have h3 := h2.step .producer (u := ⟨(e.writeSlot e.txHead .setTypeId).writeSlot e.txHead
    (·.setPayload p), .storeHead p e.txHead, poller⟩) (e := .silent) rfl
  rw [writeSlot_fill] at h3
  have h4 := h3.step .producer rfl
  have hframe : (e.writeSlot e.txHead (·.fill p)).txRing (cfg.slot e.txHead) =
      (e.txRing (cfg.slot e.txHead)).fill p := Function.update_self ..
  rw [hframe] at h4
  exact h4

/-- `push` is the producer's steps with no step of the poll thread between them. -/
theorem push_steps (s : TxSystem cfg) (h : s.producer = .idle) (ev : Option (Payload cfg)) :
    ∃ es, TxRun s es { s with endpoint := (s.endpoint.push ev).1 } ∧
      pushedFrames es = if (s.endpoint.push ev).2.1
        then [(s.endpoint.push ev).1.txRing (cfg.slot s.endpoint.txHead)] else [] := by
  obtain ⟨e, producer, poller⟩ := s
  obtain rfl : producer = .idle := h
  have h1 : TxRun ⟨e, .idle, poller⟩ [.silent] ⟨e, .loadDead ev, poller⟩ :=
    TxRun.step .nil (.callPush ev) rfl
  cases ev with
  | none =>
    rw [e.push_none]
    exact ⟨_, h1.step .producer rfl, rfl⟩
  | some p =>
    cases hdead : e.isDead with
    | true =>
      have h2 := h1.step .producer (u := ⟨e, .idle, poller⟩) (e := .rejected)
        (by simp [txStep, producerStep, hdead])
      rw [Endpoint.push_dead hdead]
      exact ⟨_, h2, rfl⟩
    | false =>
      have h2 := h1.step .producer (u := ⟨e, .loadHead p, poller⟩) (e := .silent)
        (by simp [txStep, producerStep, hdead])
      have h3 := h2.step .producer (u := ⟨e, .loadTail p e.txHead, poller⟩) (e := .silent) rfl
      by_cases hfull : cfg.capacity ≤ e.txHead - e.txTail
      · have h4 := h3.step .producer (u := ⟨e, .idle, poller⟩) (e := .rejected)
          (by simp [txStep, producerStep, hfull])
        rw [Endpoint.push_full hfull]
        exact ⟨_, h4, rfl⟩
      · rw [Endpoint.push_accepted hdead hfull]
        refine ⟨_, h3.trans (store_steps e poller p hfull), ?_⟩
        simp only [if_true, Function.update_self]
        rfl

theorem exchangeDead_steps (e : Endpoint cfg) (producer : ProducerPc cfg) (tail : BitVec w) :
    ∃ es, TxRun ⟨e, producer, .exchangeDead tail⟩ es ⟨e.markDead, producer, .storeTail tail⟩ ∧
      ∀ k, streamOf es k = [] := by
  cases hdead : e.isDead with
  | true =>
    have h1 : TxRun ⟨e, producer, .exchangeDead tail⟩ [.silent] ⟨e, producer, .storeTail tail⟩ :=
      TxRun.step .nil .poller (by simp [txStep, pollerStep, hdead])
    have hmark : e.markDead = e := by simp [Endpoint.markDead, hdead]
    rw [hmark]
    exact ⟨_, h1, fun _ => rfl⟩
  | false =>
    have h1 : TxRun ⟨e, producer, .exchangeDead tail⟩ [.silent]
        ⟨{ e with isDead := true }, producer, .resetRx tail⟩ :=
      TxRun.step .nil .poller (by simp [txStep, pollerStep, hdead])
    have h2 := (h1.step .poller rfl).step .poller rfl
    have hmark : e.markDead = { e with isDead := true, rxBytesRead := 0, txInflight := 0 } := by
      simp [Endpoint.markDead, hdead]
    rw [hmark]
    exact ⟨_, h2, fun _ => rfl⟩

theorem streamOf_append (es fs : List (TxEvent cfg)) (k : ℕ) :
    streamOf (es ++ fs) k = streamOf es k ++ streamOf fs k := List.flatMap_append

/-- The loop of `poll_tx`, from the test `tail < head` on. -/
theorem txLoop_steps (producer : ProducerPc cfg) (head : BitVec w) (os : List SendOutcome)
    (e : Endpoint cfg) (tail : BitVec w) :
    ∃ es, TxRun ⟨e, producer, pollAgain tail head⟩ es
        ⟨(txLoop head os e tail).endpoint, producer, .storeTail (txLoop head os e tail).tail⟩ ∧
      streamOf es e.sock = (txLoop head os e tail).data := by
  induction os generalizing e tail with
  | nil =>
    by_cases hlt : tail < head
    · rw [pollAgain, if_pos hlt]
      exact ⟨_, TxRun.step .nil (.send .wouldBlock) rfl, rfl⟩
    · rw [pollAgain, if_neg hlt]
      exact ⟨_, .nil, rfl⟩
  | cons o os ih =>
    by_cases hlt : tail < head
    · rw [pollAgain, if_pos hlt]
      cases o with
      | wouldBlock =>
        rw [txLoop, if_pos hlt]
        exact ⟨_, TxRun.step .nil (.send .wouldBlock) rfl, rfl⟩
      | failed =>
        obtain ⟨es, hrun, hnone⟩ := exchangeDead_steps e producer tail
        have h1 : TxRun ⟨e, producer, .send tail head⟩ [.silent]
            ⟨e, producer, .exchangeDead tail⟩ :=
          TxRun.step .nil (.send .failed) rfl
        rw [txLoop, if_pos hlt]
        refine ⟨_, h1.trans hrun, ?_⟩
        rw [streamOf_append, hnone]
        rfl
      | sent n =>
        have h1 := TxRun.step (s := ⟨e, producer, .send tail head⟩) .nil (.send (.sent n)) rfl
        rw [txLoop, if_pos hlt]
        dsimp only at h1 ⊢
        split_ifs at h1 ⊢
        · obtain ⟨es, hrun, hdata⟩ := ih { e with txInflight := 0 } (tail + 1)
          refine ⟨_, h1.trans hrun, ?_⟩
          rw [streamOf_append, hdata]
          simp [streamOf, TxEvent.bytesOn]
        · obtain ⟨es, hrun, hdata⟩ := ih { e with
            txInflight := e.txInflight + max 1 (min n (cfg.frameSize - e.txInflight)) } tail
          refine ⟨_, h1.trans hrun, ?_⟩
          rw [streamOf_append, hdata]
          simp [streamOf, TxEvent.bytesOn]
    · have hloop : txLoop head (o :: os) e tail = ⟨e, tail, []⟩ := by simp [txLoop, hlt]
      rw [pollAgain, if_neg hlt, hloop]
      exact ⟨_, .nil, rfl⟩

/-- `poll_tx` is the poll thread's steps with no step of the producer between them. -/
theorem pollTx_steps (s : TxSystem cfg) (h : s.poller = .idle) (os : List SendOutcome) :
    ∃ es, TxRun s es { s with endpoint := (s.endpoint.pollTx os).1 } ∧
      streamOf es s.endpoint.sock = (s.endpoint.pollTx os).2 := by
  obtain ⟨e, producer, poller⟩ := s
  obtain rfl : poller = .idle := h
  have h1 : TxRun ⟨e, producer, .idle⟩ [.silent] ⟨e, producer, .loadDead⟩ :=
    TxRun.step .nil .callPollTx rfl
  unfold Endpoint.pollTx
  cases hdead : e.isDead with
  | true =>
    have h2 := h1.step .poller (u := ⟨e, producer, .idle⟩) (e := .silent)
      (by simp [txStep, pollerStep, hdead])
    rw [if_pos rfl]
    exact ⟨_, h2, rfl⟩
  | false =>
    have h2 := h1.step .poller (u := ⟨e, producer, .loadTail⟩) (e := .silent)
      (by simp [txStep, pollerStep, hdead])
    have h3 := h2.step .poller (u := ⟨e, producer, .loadHead e.txTail⟩) (e := .silent) rfl
    have h4 := h3.step .poller (u := ⟨e, producer, pollAgain e.txTail e.txHead⟩) (e := .silent) rfl
    obtain ⟨es, hrun, hdata⟩ := txLoop_steps producer e.txHead os e e.txTail
    have h5 := TxRun.step (h4.trans hrun) .poller rfl
    rw [if_neg Bool.false_ne_true]
    refine ⟨_, h5, ?_⟩
    rw [streamOf_snoc, streamOf_append, hdata]
    exact List.append_nil _

/-- `bind_socket` is the poll thread's two stores with no step of the producer between them. -/
theorem bindSocket_steps (s : TxSystem cfg) (h : s.poller = .idle)
    (hdead : s.endpoint.isDead = true) :
    TxRun s [.silent, .silent, .silent]
      { s with endpoint := s.endpoint.bindSocket (s.endpoint.sock + 1) } := by
  obtain ⟨e, producer, poller⟩ := s
  obtain rfl : poller = .idle := h
  have h1 : TxRun ⟨e, producer, .idle⟩ [.silent] ⟨e, producer, .storeSocket⟩ :=
    TxRun.step .nil .callBindSocket (by simp [txStep, show e.isDead = true from hdead])
  exact (h1.step .poller rfl).step .poller rfl

end ConduitRuntime.Net
