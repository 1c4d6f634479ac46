import ConduitRuntime.Net.Delivery
import ConduitRuntime.Net.TxSteps

/-! The transmit ring under a producer and a poll thread. The poll thread moves a private tail that
it publishes at the end of `poll_tx`; the sending half of the endpoint is correct for the private
tail, and the producer only ever sees a tail that lies behind it. -/
namespace ConduitRuntime.Net
open Blocks Execution MaskedIndex
set_option autoImplicit false

variable {w : ℕ} {cfg : Config w}

/-! ## The poll thread between its stores -/

namespace PollPc

/-- The tail the poll thread works on. -/
def tail (pc : PollPc w) (published : BitVec w) : BitVec w :=
  match pc with
  | .loadHead tail | .send tail _ | .exchangeDead tail | .resetRx tail | .resetTx tail
  | .storeTail tail => tail
  | .idle | .loadDead | .loadTail | .storeSocket | .storeAlive => published

/-- Inside `mark_dead`, after the exchange. -/
def resetting : PollPc w → Bool
  | .resetRx _ | .resetTx _ => true
  | _ => false

/-- Inside `bind_socket`, after the store of the socket. -/
def binding : PollPc w → Bool
  | .storeAlive => true
  | _ => false

/-- The endpoint with the stores that `mark_dead` or `bind_socket` has yet to make. -/
def settle (pc : PollPc w) (e : Endpoint cfg) : Endpoint cfg :=
  { e with
    isDead := bif pc.binding then false else e.isDead
    txInflight := bif pc.resetting then 0 else e.txInflight }

/-- What the poll thread knows about the endpoint. -/
def Ok (pc : PollPc w) (e : Endpoint cfg) : Prop :=
  match pc with
  | .loadTail | .loadHead _ | .exchangeDead _ => e.isDead = false
  | .send tail head => e.isDead = false ∧ tail < head ∧ head ≤ e.txHead
  | .resetRx _ | .resetTx _ | .storeSocket | .storeAlive => e.isDead = true
  | .idle | .loadDead | .storeTail _ => True

theorem Ok.mono {pc : PollPc w} {e e' : Endpoint cfg} (h : pc.Ok e) (hdead : e'.isDead = e.isDead)
    (hhead : e.txHead ≤ e'.txHead) : pc.Ok e' := by
  cases pc with
  | send tail head => exact ⟨hdead.trans h.1, h.2.1, BitVec.le_trans h.2.2 hhead⟩
  | loadTail => exact hdead.trans h
  | loadHead tail => exact hdead.trans h
  | exchangeDead tail => exact hdead.trans h
  | resetRx tail => exact hdead.trans h
  | resetTx tail => exact hdead.trans h
  | storeSocket => exact hdead.trans h
  | storeAlive => exact hdead.trans h
  | idle => exact trivial
  | loadDead => exact trivial
  | storeTail tail => exact trivial

end PollPc

theorem pollAgain_tail (tail head published : BitVec w) :
    (pollAgain tail head).tail published = tail := by
  unfold pollAgain
  split_ifs <;> rfl

theorem pollAgain_settle (tail head : BitVec w) (e : Endpoint cfg) :
    (pollAgain tail head).settle e = e := by
  unfold pollAgain
  split_ifs <;> rfl

theorem pollAgain_ok {tail head : BitVec w} {e : Endpoint cfg} (halive : e.isDead = false)
    (hhead : head ≤ e.txHead) : (pollAgain tail head).Ok e := by
  unfold pollAgain
  split_ifs with hlt
  · exact ⟨halive, hlt, hhead⟩
  · exact trivial

/-! ## The invariant of the ring -/

/-- The sending half of the endpoint, for the tail of the poll thread: every connection starts with
the first frame the connections before it have not completed. -/
structure TxCore (es : List (TxEvent cfg)) (e : Endpoint cfg) (pc : PollPc w) : Prop where
  sender : Sender (pc.settle e) (pc.tail e.txTail) (pushedFrames es)
    (completed cfg.frameSize (streamOf es)) (streamOf es)
  complete : completed cfg.frameSize (streamOf es) (e.sock + 1) = (pc.tail e.txTail).toNat
  published : e.txTail.toNat ≤ (pc.tail e.txTail).toNat
  room : (pushedFrames es).length ≤ e.txTail.toNat + cfg.capacity.toNat
  poller : pc.Ok e

namespace TxCore
variable {es : List (TxEvent cfg)} {e : Endpoint cfg} {pc : PollPc w}

theorem head_eq (h : TxCore es e pc) : e.txHead.toNat = (pushedFrames es).length := h.sender.head_eq

theorem tail_le_head (h : TxCore es e pc) : e.txTail.toNat ≤ e.txHead.toNat := by
  rw [h.head_eq]
  exact h.published.trans h.sender.tail_le

/-- The free slot is not one of a frame that is still to be sent. -/
theorem slot_free (h : TxCore es e pc)
    (hroom : (pushedFrames es).length < e.txTail.toNat + cfg.capacity.toNat) :
    (pushedFrames es).length < (pc.tail e.txTail).toNat + cfg.capacity.toNat :=
  hroom.trans_le (Nat.add_le_add_right h.published _)

/-- An event that is neither a push nor a transmission. -/
theorem quiet (h : TxCore es e pc) {ev : TxEvent cfg} (hpush : ev.pushed? = none)
    (hsent : ∀ k, ev.bytesOn k = []) : TxCore (es ++ [ev]) e pc := by
  have hframes : pushedFrames (es ++ [ev]) = pushedFrames es := by
    rw [pushedFrames_snoc, hpush]
    exact List.append_nil _
  have hstream : streamOf (es ++ [ev]) = streamOf es := by
    funext k
    rw [streamOf_snoc, hsent, List.append_nil]
  refine ⟨?_, ?_, h.published, ?_, h.poller⟩
  · rw [hframes, hstream]
    exact h.sender
  · rw [hstream]
    exact h.complete
  · rw [hframes]
    exact h.room

theorem writeSlot (h : TxCore es e pc)
    (hroom : (pushedFrames es).length < e.txTail.toNat + cfg.capacity.toNat)
    (write : WireFrame cfg → WireFrame cfg) : TxCore es (e.writeSlot e.txHead write) pc :=
  ⟨h.sender.writeSlot (h.slot_free hroom) _, h.complete, h.published, h.room,
    h.poller.mono rfl (BitVec.le_refl _)⟩

theorem storeHead (h : TxCore es e pc) (hfew : (pushedFrames es).length + 1 < 2 ^ w)
    (hroom : (pushedFrames es).length < e.txTail.toNat + cfg.capacity.toNat) (p : Payload cfg) :
    TxCore (es ++ [.pushed p (e.txRing (cfg.slot e.txHead))]) { e with txHead := e.txHead + 1 }
      pc := by
  have hhead := h.head_eq
  have hframes : pushedFrames (es ++ [.pushed p (e.txRing (cfg.slot e.txHead))]) =
      pushedFrames es ++ [e.txRing (cfg.slot e.txHead)] := pushedFrames_snoc es _
  have hstream : streamOf (es ++ [.pushed p (e.txRing (cfg.slot e.txHead))]) = streamOf es := by
    funext k
    rw [streamOf_snoc]
    exact List.append_nil _
  refine ⟨?_, ?_, h.published, ?_, h.poller.mono rfl ?_⟩
  · rw [hframes, hstream]
    exact h.sender.storeHead hfew (h.slot_free hroom)
  · rw [hstream]
    exact h.complete
  · rw [hframes, List.length_append, List.length_singleton]
    exact hroom
  · rw [BitVec.le_def, toNat_succ (by omega)]
    exact Nat.le_succ _

/-- A step of the poll thread that changes nothing but where it is. -/
theorem move (h : TxCore es e pc) {pc' : PollPc w} (hsettle : pc'.settle e = pc.settle e)
    (htail : pc'.tail e.txTail = pc.tail e.txTail) (hok : pc'.Ok e) : TxCore es e pc' := by
  refine ⟨?_, ?_, ?_, h.room, hok⟩
  · rw [hsettle, htail]
    exact h.sender
  · rw [htail]
    exact h.complete
  · rw [htail]
    exact h.published

/-- Connections that are not bound yet would start at the tail. -/
theorem completed_unbound (h : TxCore es e pc) {k : ℕ} (hk : e.sock < k) :
    completed cfg.frameSize (streamOf es) k = (pc.tail e.txTail).toNat := by
  rw [← h.complete]
  exact completed_of_empty (fun j hj => h.sender.unsent j hj) hk

end TxCore

/-! ## Transmissions -/

/-- After a transmission the frames completed so far are again those before the tail, so the starts
can be counted anew. -/
theorem Sender.recount {e : Endpoint cfg} {tail : BitVec w} {frames : List (WireFrame cfg)}
    {stream stream' : ℕ → List UInt8}
    (h : Sender e tail frames (completed cfg.frameSize stream) stream') (halive : e.isDead = false)
    (hother : ∀ k, k < e.sock → stream k = stream' k) :
    completed cfg.frameSize stream' (e.sock + 1) = tail.toNat ∧
      Sender e tail frames (completed cfg.frameSize stream') stream' := by
  have hstart : ∀ k, k ≤ e.sock →
      completed cfg.frameSize stream' k = completed cfg.frameSize stream k := by
    intro k hk
    exact (completed_congr fun j hj => hother j (hj.trans_le hk)).symm
  obtain ⟨hle, hlen⟩ := h.current halive
  have hcomplete : completed cfg.frameSize stream' (e.sock + 1) = tail.toNat := by
    rw [completed, hstart e.sock le_rfl, hlen, Nat.mul_comm, Nat.mul_add_div cfg.frameSize_pos,
      Nat.div_eq_of_lt h.inflight_lt]
    omega
  refine ⟨hcomplete, h.restart hstart fun k hk => ?_⟩
  rw [completed_of_empty (fun j hj => h.unsent j hj) hk, hcomplete]

theorem streamOf_sent (es : List (TxEvent cfg)) (k : ℕ) (data : List UInt8) :
    streamOf (es ++ [.sent k data]) =
      Function.update (streamOf es) k (streamOf es k ++ data) := by
  funext j
  rw [streamOf_snoc]
  by_cases hj : j = k
  · subst hj
    simp [TxEvent.bytesOn]
  · simp [TxEvent.bytesOn, hj, Ne.symm hj]

theorem pushedFrames_sent (es : List (TxEvent cfg)) (k : ℕ) (data : List UInt8) :
    pushedFrames (es ++ [.sent k data]) = pushedFrames es := by
  rw [pushedFrames_snoc]
  exact List.append_nil _

namespace TxCore
variable {es : List (TxEvent cfg)} {e : Endpoint cfg} {tail head : BitVec w}

/-- `send` has taken `data` and left the sending half at `(tail', inflight')`. -/
theorem sent (h : TxCore es e (.send tail head)) {tail' : BitVec w} {inflight' : ℕ}
    {data : List UInt8} (htail : tail.toNat ≤ tail'.toNat)
    (hsender : Sender { e with txInflight := inflight' } tail' (pushedFrames es)
      (completed cfg.frameSize (streamOf es))
      (Function.update (streamOf es) e.sock (streamOf es e.sock ++ data))) :
    TxCore (es ++ [.sent e.sock data]) { e with txInflight := inflight' }
      (pollAgain tail' head) := by
  obtain ⟨halive, _, hhead⟩ := h.poller
  rw [← streamOf_sent] at hsender
  obtain ⟨hcomplete, hsender⟩ := hsender.recount halive fun k hk => by
    rw [streamOf_sent, Function.update_of_ne (Nat.ne_of_lt hk)]
  have hpublished := h.published
  refine ⟨?_, ?_, ?_, ?_, pollAgain_ok halive hhead⟩
  · rw [pollAgain_settle, pollAgain_tail, pushedFrames_sent]
    exact hsender
  · rw [pollAgain_tail]
    exact hcomplete
  · rw [pollAgain_tail]
    exact hpublished.trans htail
  · rw [pushedFrames_sent]
    exact h.room

theorem send (h : TxCore es e (.send tail head)) (n : ℕ) {bytesSent : ℕ}
    (hbytes : bytesSent = max 1 (min n (cfg.frameSize - e.txInflight))) :
    (e.txInflight + bytesSent = cfg.frameSize →
      TxCore (es ++ [.sent e.sock
          (((e.txRing (cfg.slot tail)).bytes.drop e.txInflight).take bytesSent)])
        { e with txInflight := 0 } (pollAgain (tail + 1) head)) ∧
    (e.txInflight + bytesSent ≠ cfg.frameSize →
      TxCore (es ++ [.sent e.sock
          (((e.txRing (cfg.slot tail)).bytes.drop e.txInflight).take bytesSent)])
        { e with txInflight := e.txInflight + bytesSent } (pollAgain tail head)) := by
  obtain ⟨halive, hlt, hhead⟩ := h.poller
  have hsender : Sender e tail (pushedFrames es) (completed cfg.frameSize (streamOf es))
      (streamOf es) := h.sender
  have hinflight := hsender.inflight_lt
  have htail : tail.toNat < (pushedFrames es).length := by
    rw [← h.head_eq]
    exact (BitVec.lt_def.mp hlt).trans_le (BitVec.le_def.mp hhead)
  have hw := e.txHead.isLt
  have hcount := h.head_eq
  constructor
  · intro hfull
    have hnext : (tail + 1).toNat = tail.toNat + 1 := toNat_succ (by omega)
    exact h.sent (by omega) (hsender.send_frame halive htail hfull)
  · intro hpart
    exact h.sent le_rfl (hsender.send_part halive htail (by omega))

/-! ## Death, publication and binding -/

theorem exchangeDead (h : TxCore es e (.exchangeDead tail)) :
    TxCore es { e with isDead := true } (.resetRx tail) :=
  ⟨h.sender.of_rx _ rfl rfl rfl (.inr ⟨rfl, rfl⟩), h.complete, h.published, h.room, rfl⟩

theorem resetRx (h : TxCore es e (.resetRx tail)) :
    TxCore es { e with rxBytesRead := 0 } (.resetTx tail) :=
  ⟨h.sender.of_rx _ rfl rfl rfl (.inl ⟨rfl, rfl⟩), h.complete, h.published, h.room, h.poller⟩

theorem resetTx (h : TxCore es e (.resetTx tail)) :
    TxCore es { e with txInflight := 0 } (.storeTail tail) :=
  ⟨h.sender, h.complete, h.published, h.room, trivial⟩

theorem storeTail (h : TxCore es e (.storeTail tail)) :
    TxCore es { e with txTail := tail } .idle :=
  ⟨h.sender.of_rx _ rfl rfl rfl (.inl ⟨rfl, rfl⟩), h.complete, le_rfl,
    h.room.trans (Nat.add_le_add_right h.published _), trivial⟩

theorem storeSocket (h : TxCore es e .storeSocket) :
    TxCore es { e with sock := e.sock + 1 } .storeAlive := by
  have hdead : e.isDead = true := h.poller
  -- the new connection carries nothing yet and starts at the tail, where the count puts it anyway
  have hbound := Sender.bindSocket (e := e) h.sender hdead (Nat.lt_succ_self e.sock)
  refine ⟨hbound.restart ?_ ?_, ?_, h.published, h.room, hdead⟩
  · intro k hk
    by_cases hnew : k = e.sock + 1
    · subst hnew
      rw [Function.update_self]
      exact h.complete
    · rw [Function.update_of_ne hnew]
  · intro k hk
    exact h.completed_unbound (Nat.lt_of_succ_lt hk)
  · exact h.completed_unbound (Nat.lt_succ_of_lt (Nat.lt_succ_self e.sock))

theorem storeAlive (h : TxCore es e .storeAlive) : TxCore es { e with isDead := false } .idle :=
  ⟨h.sender, h.complete, h.published, h.room, trivial⟩

end TxCore

/-! ## The producer -/

namespace ProducerPc

/-- The index of the slot the producer is about to write. -/
def slotWrite : ProducerPc cfg → Option (BitVec w)
  | .writeTypeId _ head | .writePayload _ head => some head
  | _ => none

/-- The head the producer loaded is current, and a slot is free. -/
def Granted (e : Endpoint cfg) (head : BitVec w) : Prop :=
  head = e.txHead ∧ e.txHead.toNat < e.txTail.toNat + cfg.capacity.toNat

/-- What the producer knows about the endpoint. -/
def Ok (pc : ProducerPc cfg) (e : Endpoint cfg) : Prop :=
  match pc with
  | .idle | .loadDead _ | .loadHead _ => True
  | .loadTail _ head => head = e.txHead
  | .writeTypeId _ head => Granted e head
  | .writePayload _ head =>
    Granted e head ∧ ∃ f : WireFrame cfg, e.txRing (cfg.slot head) = f.setTypeId
  | .storeHead p head => Granted e head ∧ ∃ f : WireFrame cfg, e.txRing (cfg.slot head) = f.fill p

/-- The poll thread does not write what the producer relies on, apart from moving the tail on. -/
theorem Ok.of_poll {pc : ProducerPc cfg} {e e' : Endpoint cfg} (h : pc.Ok e)
    (hring : e'.txRing = e.txRing) (hhead : e'.txHead = e.txHead)
    (htail : e.txTail.toNat ≤ e'.txTail.toNat) : pc.Ok e' := by
  have hgranted : ∀ head, Granted e head → Granted e' head := by
    intro head hg
    refine ⟨hg.1.trans hhead.symm, ?_⟩
    rw [hhead]
    exact hg.2.trans_le (Nat.add_le_add_right htail _)
  cases pc with
  | idle => exact trivial
  | loadDead ev => exact trivial
  | loadHead p => exact trivial
  | loadTail p head => exact h.trans hhead.symm
  | writeTypeId p head => exact hgranted head h
  | writePayload p head => exact ⟨hgranted head h.1, hring ▸ h.2⟩
  | storeHead p head => exact ⟨hgranted head h.1, hring ▸ h.2⟩

end ProducerPc

/-- Every pushed frame carries the payload of its push. -/
def Carries (es : List (TxEvent cfg)) : Prop :=
  ∀ p f, TxEvent.pushed p f ∈ es → ∃ f₀ : WireFrame cfg, f = f₀.fill p

theorem Carries.quiet {es : List (TxEvent cfg)} (h : Carries es) {ev : TxEvent cfg}
    (hpush : ev.pushed? = none) : Carries (es ++ [ev]) := by
  intro p f hmem
  rcases List.mem_append.mp hmem with hold | hnew
  · exact h p f hold
  · obtain rfl := List.mem_singleton.mp hnew
    cases hpush

structure TxInv (es : List (TxEvent cfg)) (s : TxSystem cfg) : Prop where
  core : TxCore es s.endpoint s.poller
  producer : s.producer.Ok s.endpoint
  carries : Carries es

namespace TxInv
variable {es : List (TxEvent cfg)} {e : Endpoint cfg} {producer : ProducerPc cfg}
  {poller : PollPc w}

/-- The producer moves without touching the endpoint. -/
theorem producer_quiet (h : TxInv es ⟨e, producer, poller⟩) (producer' : ProducerPc cfg)
    (hok : producer'.Ok e) {ev : TxEvent cfg} (hpush : ev.pushed? = none)
    (hsent : ∀ k, ev.bytesOn k = []) : TxInv (es ++ [ev]) ⟨e, producer', poller⟩ :=
  ⟨h.core.quiet hpush hsent, hok, h.carries.quiet hpush⟩

/-- The poll thread moves and sends nothing. -/
theorem poller_quiet (h : TxInv es ⟨e, producer, poller⟩) {e' : Endpoint cfg} {poller' : PollPc w}
    (hcore : TxCore es e' poller') (hring : e'.txRing = e.txRing) (hhead : e'.txHead = e.txHead)
    (htail : e.txTail.toNat ≤ e'.txTail.toNat) :
    TxInv (es ++ [.silent]) ⟨e', producer, poller'⟩ :=
  ⟨hcore.quiet rfl fun _ => rfl, h.producer.of_poll hring hhead htail, h.carries.quiet rfl⟩

/-- The room that the producer found when it loaded the tail. -/
theorem granted_of_room (h : TxInv es ⟨e, producer, poller⟩) {head : BitVec w}
    (hhead : head = e.txHead) (hroom : ¬ cfg.capacity ≤ head - e.txTail) :
    ProducerPc.Granted e head := by
  have hle : e.txTail.toNat ≤ e.txHead.toNat := h.core.tail_le_head
  refine ⟨hhead, ?_⟩
  subst hhead
  rw [BitVec.le_def, BitVec.toNat_sub_of_le (BitVec.le_def.mpr hle)] at hroom
  omega

theorem producerStep {s t : TxSystem cfg} {ev : TxEvent cfg} (h : TxInv es s)
    (hfew : (pushedFrames (es ++ [ev])).length < 2 ^ w)
    (hstep : Net.producerStep s = some (t, ev)) : TxInv (es ++ [ev]) t := by
  obtain ⟨e, producer, poller⟩ := s
  have hok : producer.Ok e := h.producer
  cases producer with
  | idle => cases hstep
  | loadDead ev =>
    cases ev with
    | none =>
      cases hstep
      exact h.producer_quiet .idle trivial rfl fun _ => rfl
    | some p =>
      simp only [Net.producerStep] at hstep
      split_ifs at hstep <;> cases hstep
      · exact h.producer_quiet .idle trivial rfl fun _ => rfl
      · exact h.producer_quiet (.loadHead p) trivial rfl fun _ => rfl
  | loadHead p =>
    cases hstep
    exact h.producer_quiet (.loadTail p e.txHead) rfl rfl fun _ => rfl
  | loadTail p head =>
    simp only [Net.producerStep] at hstep
    split_ifs at hstep with hfull <;> cases hstep
    · exact h.producer_quiet .idle trivial rfl fun _ => rfl
    · exact h.producer_quiet (.writeTypeId p head) (h.granted_of_room hok hfull) rfl fun _ => rfl
  | writeTypeId p head =>
    cases hstep
    obtain ⟨rfl, hroom⟩ := hok
    have hcore := h.core.writeSlot (by rwa [← h.core.head_eq]) WireFrame.setTypeId
    refine ⟨hcore.quiet rfl fun _ => rfl, ⟨⟨rfl, hroom⟩, e.txRing (cfg.slot e.txHead), ?_⟩,
      h.carries.quiet rfl⟩
    simp only [Endpoint.writeSlot, Function.update_self]
  | writePayload p head =>
    cases hstep
    obtain ⟨⟨rfl, hroom⟩, f, hf⟩ := hok
    have hcore := h.core.writeSlot (by rwa [← h.core.head_eq]) (·.setPayload p)
    refine ⟨hcore.quiet rfl fun _ => rfl, ⟨⟨rfl, hroom⟩, f, ?_⟩, h.carries.quiet rfl⟩
    simp only [Endpoint.writeSlot, Function.update_self, hf, WireFrame.fill_eq]
  | storeHead p head =>
    cases hstep
    obtain ⟨⟨rfl, hroom⟩, f, hf⟩ := hok
    rw [pushedFrames_snoc, List.length_append] at hfew
    refine ⟨h.core.storeHead hfew (by rwa [← h.core.head_eq]) p, trivial, ?_⟩
    intro q g hmem
    rcases List.mem_append.mp hmem with hold | hnew
    · exact h.carries q g hold
    · obtain ⟨rfl, rfl⟩ := TxEvent.pushed.inj (List.mem_singleton.mp hnew)
      exact ⟨f, hf⟩

theorem pollerStep {s t : TxSystem cfg} {ev : TxEvent cfg} (h : TxInv es s)
    (hstep : Net.pollerStep s = some (t, ev)) : TxInv (es ++ [ev]) t := by
  obtain ⟨e, producer, poller⟩ := s
  have hcore := h.core
  have hok := h.core.poller
  cases poller with
  | idle => cases hstep
  | send tail head => cases hstep
  | loadDead =>
    cases hstep
    refine h.poller_quiet ?_ rfl rfl le_rfl
    cases hdead : e.isDead with
    | true => exact hcore.move rfl rfl trivial
    | false => exact hcore.move rfl rfl hdead
  | loadTail =>
    cases hstep
    exact h.poller_quiet (hcore.move rfl rfl hok) rfl rfl le_rfl
  | loadHead tail =>
    cases hstep
    refine h.poller_quiet (hcore.move ?_ ?_ (pollAgain_ok hok (BitVec.le_refl _))) rfl rfl le_rfl
    · exact pollAgain_settle tail e.txHead e
    · exact pollAgain_tail tail e.txHead e.txTail
  | exchangeDead tail =>
    -- only the poll thread writes `is_dead_`, so the exchange succeeds
    have halive : e.isDead = false := hok
    simp only [Net.pollerStep, halive, Bool.false_eq_true, if_false] at hstep
    cases hstep
    exact h.poller_quiet hcore.exchangeDead rfl rfl le_rfl
  | resetRx tail =>
    cases hstep
    exact h.poller_quiet hcore.resetRx rfl rfl le_rfl
  | resetTx tail =>
    cases hstep
    exact h.poller_quiet hcore.resetTx rfl rfl le_rfl
  | storeTail tail =>
    cases hstep
    exact h.poller_quiet hcore.storeTail rfl rfl hcore.published
  | storeSocket =>
    cases hstep
    exact h.poller_quiet hcore.storeSocket rfl rfl le_rfl
  | storeAlive =>
    cases hstep
    exact h.poller_quiet hcore.storeAlive rfl rfl le_rfl

theorem sendStep {s t : TxSystem cfg} {outcome : SendOutcome} {ev : TxEvent cfg} (h : TxInv es s)
    (hstep : Net.sendStep s outcome = some (t, ev)) : TxInv (es ++ [ev]) t := by
  obtain ⟨e, producer, poller⟩ := s
  cases poller with
  | send tail head =>
    cases outcome with
    | wouldBlock =>
      cases hstep
      exact h.poller_quiet (h.core.move rfl rfl trivial) rfl rfl le_rfl
    | failed =>
      cases hstep
      exact h.poller_quiet (h.core.move rfl rfl h.core.poller.1) rfl rfl le_rfl
    | sent n =>
      obtain ⟨hfull, hpart⟩ := h.core.send n rfl
      cases hstep
      split_ifs with hend
      · exact ⟨hfull hend, h.producer.of_poll rfl rfl le_rfl, h.carries.quiet rfl⟩
      · exact ⟨hpart hend, h.producer.of_poll rfl rfl le_rfl, h.carries.quiet rfl⟩
  | _ => cases hstep

/-- Every step keeps the invariant, as long as `tx_head_` does not wrap. -/
theorem step {s t : TxSystem cfg} {a : TxAction cfg} {ev : TxEvent cfg} (h : TxInv es s)
    (hfew : (pushedFrames (es ++ [ev])).length < 2 ^ w) (hstep : txStep s a = some (t, ev)) :
    TxInv (es ++ [ev]) t := by
  cases a with
  | producer => exact h.producerStep hfew hstep
  | poller => exact h.pollerStep hstep
  | send outcome => exact h.sendStep hstep
  | callPush ev =>
    obtain ⟨e, producer, poller⟩ := s
    cases producer with
    | idle =>
      cases hstep
      exact h.producer_quiet (.loadDead ev) trivial rfl fun _ => rfl
    | _ => cases hstep
  | callPollTx =>
    obtain ⟨e, producer, poller⟩ := s
    cases poller with
    | idle =>
      cases hstep
      exact h.poller_quiet (h.core.move rfl rfl trivial) rfl rfl le_rfl
    | _ => cases hstep
  | callBindSocket =>
    obtain ⟨e, producer, poller⟩ := s
    cases poller with
    | idle =>
      simp only [txStep] at hstep
      split at hstep
      · rename_i hdead
        cases hstep
        exact h.poller_quiet (h.core.move rfl rfl hdead) rfl rfl le_rfl
      · cases hstep
    | _ => cases hstep

end TxInv

/-! ## Whole runs -/

theorem init_inv (txRing : ℕ → WireFrame cfg) (rxStaging : List UInt8) :
    TxInv [] (txInit txRing rxStaging) := by
  have hempty : ∀ k, completed cfg.frameSize (streamOf ([] : List (TxEvent cfg))) k = 0 :=
    fun k => completed_of_empty (fun _ _ => rfl) (Nat.zero_le k)
  exact ⟨⟨Sender.fresh txRing rxStaging hempty, hempty _, le_rfl, Nat.zero_le _, trivial⟩, trivial,
    nofun⟩

/-- Runs with fewer than `2 ^ w` pushes keep the invariant. -/
theorem run_inv {txRing : ℕ → WireFrame cfg} {rxStaging : List UInt8} {es : List (TxEvent cfg)}
    {s : TxSystem cfg} (h : TxRun (txInit txRing rxStaging) es s)
    (hfew : (pushedFrames es).length < 2 ^ w) : TxInv es s := by
  refine h.invariant (fun es s => (pushedFrames es).length < 2 ^ w → TxInv es s)
    (fun _ => init_inv txRing rxStaging) ?_ hfew
  intro es s a t ev ih _ hstep hfew
  have hbefore : (pushedFrames es).length ≤ (pushedFrames (es ++ [ev])).length := by
    rw [pushedFrames_snoc, List.length_append]
    exact Nat.le_add_right _ _
  exact (ih (hbefore.trans_lt hfew)).step hfew hstep

/-- The frames completely handed to `send` on the connections up to `n`, in order. -/
def handedFrames (es : List (TxEvent cfg)) (n : ℕ) : List (List UInt8) :=
  (List.range (n + 1)).flatMap fun k => chunks cfg.frameSize (streamOf es k)

namespace TxInv
variable {es : List (TxEvent cfg)} {s : TxSystem cfg}

theorem sent (h : TxInv es s) (k : ℕ) :
    streamOf es k <+:
      ((wire (pushedFrames es)).drop (completed cfg.frameSize (streamOf es) k)).flatten := by
  rw [wire, ← List.map_drop]
  exact h.core.sender.sent k

theorem handed_eq (h : TxInv es s) :
    handedFrames es s.endpoint.sock =
      (wire (pushedFrames es)).take (s.poller.tail s.endpoint.txTail).toNat := by
  rw [← h.core.complete]
  exact chunks_of_resumed (wire_uniform _) cfg.frameSize_pos h.sent _

theorem handed_length (h : TxInv es s) :
    (handedFrames es s.endpoint.sock).length = (s.poller.tail s.endpoint.txTail).toNat := by
  rw [h.handed_eq, List.length_take, wire, List.length_map]
  exact Nat.min_eq_left h.core.sender.tail_le

/-- A slot that is about to be written holds no frame that is still to be sent. -/
theorem slot_handed (h : TxInv es s) {head : BitVec w} (hwrite : s.producer.slotWrite = some head)
    {i : ℕ} (hi : i < (pushedFrames es).length)
    (hslot : cfg.slot (BitVec.ofNat w i) = cfg.slot head) :
    i < (handedFrames es s.endpoint.sock).length := by
  have hgranted : ProducerPc.Granted s.endpoint head := by
    obtain ⟨e, producer, poller⟩ := s
    have hok : producer.Ok e := h.producer
    cases producer with
    | writeTypeId p head' =>
      cases hwrite
      exact hok
    | writePayload p head' =>
      cases hwrite
      exact hok.1
    | _ => cases hwrite
  obtain ⟨rfl, hroom⟩ := hgranted
  rw [h.core.head_eq] at hroom
  rw [h.handed_length]
  -- a frame from the tail on is fewer than `Capacity` positions away from the head
  by_contra hlate
  exact h.core.sender.slot_ne_head (h.core.slot_free hroom) hi (Nat.le_of_not_lt hlate) hslot

/-- A connection carries whole frames, from the first one not completed before, and then at most a
part of the frame that the next connection starts with. -/
theorem stream_split (h : TxInv es s) (k : ℕ) :
    ∃ t, streamOf es k =
        (wire (((pushedFrames es).drop (completed cfg.frameSize (streamOf es) k)).take
          ((streamOf es k).length / cfg.frameSize))).flatten ++ t ∧
      t.length < cfg.frameSize ∧
      (t ≠ [] → ∃ f, (pushedFrames es)[completed cfg.frameSize (streamOf es) (k + 1)]? = some f ∧
        t <+: f.bytes) := by
  obtain ⟨t, hsplit, hlen, hnext⟩ := split_of_prefix
    (fun b hb => wire_uniform (pushedFrames es) b (List.mem_of_mem_drop hb)) (h.sent k)
    cfg.frameSize_pos
  refine ⟨t, ?_, hlen, fun hne => ?_⟩
  · rw [wire, List.map_take, List.map_drop]
    exact hsplit
  · obtain ⟨b, hb, hpart⟩ := hnext hne
    rw [List.getElem?_drop, wire, List.getElem?_map, Option.map_eq_some_iff] at hb
    obtain ⟨f, hf, rfl⟩ := hb
    exact ⟨f, hf, hpart⟩

end TxInv

/-- In every interleaving of a producer thread and a poll thread, with fewer than `2 ^ w` pushes. -/
theorem tx_ring_concurrent (txRing : ℕ → WireFrame cfg) (rxStaging : List UInt8)
    {es : List (TxEvent cfg)} {s : TxSystem cfg} (h : TxRun (txInit txRing rxStaging) es s)
    (hfew : (pushedFrames es).length < 2 ^ w) :
    (s.endpoint.txTail ≤ s.endpoint.txHead ∧
      s.endpoint.txHead - s.endpoint.txTail ≤ cfg.capacity) ∧
    (∀ head, s.producer.slotWrite = some head → ∀ i < (pushedFrames es).length,
      cfg.slot (BitVec.ofNat w i) = cfg.slot head →
        i < (handedFrames es s.endpoint.sock).length) ∧
    handedFrames es s.endpoint.sock <+: wire (pushedFrames es) ∧
    (∀ k, ∃ t, streamOf es k =
        (wire (((pushedFrames es).drop (completed cfg.frameSize (streamOf es) k)).take
          ((streamOf es k).length / cfg.frameSize))).flatten ++ t ∧
      t.length < cfg.frameSize ∧
      (t ≠ [] → ∃ f, (pushedFrames es)[completed cfg.frameSize (streamOf es) (k + 1)]? = some f ∧
        t <+: f.bytes)) ∧
    (∀ p f, TxEvent.pushed p f ∈ es →
      typeIdOf f.bytes = cfg.typeId ∧ payloadOf cfg f.bytes = p.bytes) := by
  have hinv := run_inv h hfew
  refine ⟨⟨?_, ?_⟩, fun head hwrite i hi hslot => hinv.slot_handed hwrite hi hslot, ?_,
    hinv.stream_split, fun p f hmem => ?_⟩
  · exact BitVec.le_def.mpr hinv.core.tail_le_head
  · have hroom := hinv.core.room
    rw [← hinv.core.head_eq] at hroom
    rw [BitVec.le_def, BitVec.toNat_sub_of_le (BitVec.le_def.mpr hinv.core.tail_le_head)]
    omega
  · rw [hinv.handed_eq]
    exact List.take_prefix _ _
  · obtain ⟨f₀, rfl⟩ := hinv.carries p f hmem
    exact ⟨typeIdOf_fill f₀ p, payloadOf_fill f₀ p⟩

/-- A one-byte event and a ring with one slot. -/
def oneSlotConfig : Config 8 := ⟨[9, 0, 0, 0], sampleTypeId_length, 1, 1, rfl⟩

/-- The first connection breaks inside the first frame. The frame is sent again on the second
connection, and the next push begins before the poll thread has published its tail. -/
theorem tx_ring_concurrent_one_slot :
    ∃ (es : List (TxEvent oneSlotConfig)) (s : TxSystem oneSlotConfig),
      TxRun (txInit (fun _ => ⟨List.replicate 64 0, rfl⟩) []) es s ∧
      (streamOf es 1).length = 10 ∧ (streamOf es 2).length = 64 ∧
      handedFrames es s.endpoint.sock <+: wire (pushedFrames es) ∧
      (handedFrames es s.endpoint.sock).length = 1 := by
  have h := exec_of_run (show run txStep (fun _ _ => True)
    (txInit (fun _ => (⟨List.replicate 64 0, rfl⟩ : WireFrame oneSlotConfig)) [])
    [.callBindSocket, .poller, .poller, .callPush (some ⟨[7], rfl⟩), .producer, .producer,
      .producer, .producer, .producer, .producer, .callPollTx, .poller, .poller, .poller,
      .send (.sent 10), .send .failed, .poller, .poller, .poller, .poller, .callBindSocket, .poller,
      .poller, .callPollTx, .poller, .poller, .poller, .send (.sent 64),
      .callPush (some ⟨[8], rfl⟩), .producer, .producer, .poller, .producer] =
    some (_, _) from rfl)
  obtain ⟨_, _, hhanded, _⟩ := tx_ring_concurrent _ _ h (by decide)
  exact ⟨_, _, h, rfl, rfl, hhanded, rfl⟩

end ConduitRuntime.Net
