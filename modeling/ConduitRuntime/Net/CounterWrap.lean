import ConduitRuntime.Net.EndToEnd
import Mathlib.Data.List.Forall2

/-! `tx_head_` and `tx_tail_` run freely modulo `2 ^ w`. `push` measures their distance by
subtraction, which a wrap does not disturb; the loop of `poll_tx` compares them, and stops at once
when only the head has wrapped. -/
namespace ConduitRuntime.Net
open Blocks Execution MaskedIndex
set_option autoImplicit false
set_option maxRecDepth 20000

variable {w : ℕ} {cfg : Config w}

/-! ## Calls on one endpoint -/

inductive EndpointAction (cfg : Config w)
  | bind (fd : ℕ)
  | push (ev : Option (Payload cfg))
  | pollTx (outcomes : List SendOutcome)
  | pollRx (outcomes : List RecvOutcome) (answers : List Bool) (arrived : List UInt8)

/-- `sent data frames`: the socket took `data`, which completed so many frames. -/
inductive EndpointEvent (cfg : Config w)
  | bound
  | accepted (p : Payload cfg)
  | rejected
  | sent (data : List UInt8) (frames : ℕ)
  | received

def endpointStep (e : Endpoint cfg) :
    EndpointAction cfg → Option (Endpoint cfg × EndpointEvent cfg)
  | .bind fd => some (e.bindSocket fd, .bound)
  | .push ev =>
    let r := e.push ev
    match r.2.1, ev with
    | true, some p => some (r.1, .accepted p)
    | _, _ => some (r.1, .rejected)
  | .pollTx outcomes =>
    let r := e.pollTx outcomes
    some (r.1, .sent r.2 ((e.txInflight + r.2.length) / cfg.frameSize))
  | .pollRx outcomes answers arrived =>
    some ((e.pollRx anyDomain outcomes answers arrived).endpoint, .received)

def EndpointEvent.accepted? : EndpointEvent cfg → Option (Payload cfg)
  | .accepted p => some p
  | _ => none

def EndpointEvent.completed : EndpointEvent cfg → ℕ
  | .sent _ frames => frames
  | _ => 0

def acceptedPayloads (es : List (EndpointEvent cfg)) : List (Payload cfg) :=
  es.filterMap EndpointEvent.accepted?

def completedFrames (es : List (EndpointEvent cfg)) : ℕ := (es.map EndpointEvent.completed).sum

theorem acceptedPayloads_snoc (es : List (EndpointEvent cfg)) (ev : EndpointEvent cfg) :
    acceptedPayloads (es ++ [ev]) = acceptedPayloads es ++ ev.accepted?.toList :=
  filterMap_snoc _ es ev

theorem completedFrames_snoc (es : List (EndpointEvent cfg)) (ev : EndpointEvent cfg) :
    completedFrames (es ++ [ev]) = completedFrames es + ev.completed := by
  simp [completedFrames]

/-- `push` either changes nothing or stores one frame. -/
theorem endpointStep_push {e e' : Endpoint cfg} {ev : Option (Payload cfg)}
    {event : EndpointEvent cfg} (hstep : endpointStep e (.push ev) = some (e', event)) :
    (e' = e ∧ event = .rejected) ∨
      ∃ p, e.isDead = false ∧ ¬ cfg.capacity ≤ e.txHead - e.txTail ∧ event = .accepted p ∧
        e' = { e with
          txRing := Function.update e.txRing (cfg.slot e.txHead)
            ((e.txRing (cfg.slot e.txHead)).fill p)
          txHead := e.txHead + 1 } := by
  simp only [endpointStep] at hstep
  rcases e.push_cases ev with hpush | ⟨p, rfl, halive, hroom, hpush⟩
  · rw [hpush] at hstep
    cases hstep
    exact .inl ⟨rfl, rfl⟩
  · rw [hpush] at hstep
    cases hstep
    exact .inr ⟨p, halive, hroom, rfl, rfl⟩

/-! ## The frames between the counters -/

/-- `frames` are all frames ever pushed, of which the first `sent` are out. Both numbers are
unbounded; the counters show them modulo `2 ^ w`. -/
structure Window (e : Endpoint cfg) (tail : BitVec w) (frames : List (WireFrame cfg))
    (sent : ℕ) : Prop where
  head_eq : e.txHead = BitVec.ofNat w frames.length
  tail_eq : tail = BitVec.ofNat w sent
  sent_le : sent ≤ frames.length
  room : frames.length ≤ sent + cfg.capacity.toNat
  ring : ∀ i (hi : i < frames.length), sent ≤ i →
    e.txRing (i % cfg.capacity.toNat) = frames[i]
  inflight_lt : e.txInflight < cfg.frameSize

theorem Config.slot_ofNat (hpos : 0 < cfg.capacity.toNat) (n : ℕ) :
    cfg.slot (BitVec.ofNat w n) = n % cfg.capacity.toNat :=
  mask_ofNat cfg.capacity_pow hpos n

namespace Window
variable {e : Endpoint cfg} {tail : BitVec w} {frames : List (WireFrame cfg)} {sent : ℕ}

theorem fresh (txRing : ℕ → WireFrame cfg) (rxStaging : List UInt8) :
    Window (.fresh txRing rxStaging) 0 [] 0 := by
  have hfs := cfg.frameSize_pos
  constructor <;> simp [Endpoint.fresh, hfs]

theorem of_tx (h : Window e tail frames sent) {e' : Endpoint cfg} (hhead : e'.txHead = e.txHead)
    (hring : e'.txRing = e.txRing) (hinflight : e'.txInflight < cfg.frameSize) :
    Window e' tail frames sent :=
  ⟨hhead.trans h.head_eq, h.tail_eq, h.sent_le, h.room, by rw [hring]; exact h.ring, hinflight⟩

theorem of_txKept (h : Window e tail frames sent) {e' : Endpoint cfg} (hkept : TxKept e e') :
    Window e' tail frames sent := by
  obtain ⟨_, hhead, _, hring, hdead⟩ := hkept
  refine h.of_tx hhead hring ?_
  rcases hdead with ⟨_, hi⟩ | ⟨_, hi⟩
  · rw [hi]
    exact h.inflight_lt
  · rw [hi]
    exact cfg.frameSize_pos

theorem markDead (h : Window e tail frames sent) : Window e.markDead tail frames sent := by
  unfold Endpoint.markDead
  split_ifs
  · exact h
  · exact h.of_tx rfl rfl cfg.frameSize_pos

/-! ## What the counters tell -/

theorem pending_lt (h : Window e tail frames sent) : frames.length - sent < 2 ^ w := by
  have := h.room
  have := cfg.capacity.isLt
  omega

theorem distance (h : Window e tail frames sent) :
    (e.txHead - tail).toNat = frames.length - sent := by
  rw [h.head_eq, h.tail_eq]
  exact ofNat_sub_toNat h.sent_le h.pending_lt

theorem full_iff (h : Window e tail frames sent) :
    cfg.capacity ≤ e.txHead - tail ↔ sent + cfg.capacity.toNat ≤ frames.length := by
  have := h.sent_le
  rw [BitVec.le_def, h.distance]
  omega

theorem tail_le_iff (h : Window e tail frames sent) :
    tail ≤ e.txHead ↔ tail.toNat + (frames.length - sent) = e.txHead.toNat := by
  rw [h.head_eq, h.tail_eq]
  exact ofNat_le_iff h.sent_le h.pending_lt

/-- Counters that have not used up the word are in order. -/
theorem tail_le_of_few (h : Window e tail frames sent) (hfew : frames.length < 2 ^ w) :
    tail ≤ e.txHead := by
  have hle := h.sent_le
  rw [h.tail_le_iff, h.head_eq, h.tail_eq, BitVec.toNat_ofNat, BitVec.toNat_ofNat,
    Nat.mod_eq_of_lt hfew, Nat.mod_eq_of_lt (by omega)]
  omega

theorem sent_lt (h : Window e tail frames sent) (hlt : tail < e.txHead) :
    sent < frames.length := by
  refine lt_of_le_of_ne h.sent_le fun heq => ?_
  rw [h.head_eq, h.tail_eq, heq] at hlt
  exact BitVec.lt_irrefl _ hlt

theorem current (hpos : 0 < cfg.capacity.toNat) (h : Window e tail frames sent)
    (hlt : sent < frames.length) : e.txRing (cfg.slot tail) = frames[sent] := by
  rw [h.tail_eq, Config.slot_ofNat hpos]
  exact h.ring sent hlt (Nat.le_refl _)

/-! ## What the calls do to it -/

theorem push (hpos : 0 < cfg.capacity.toNat) (h : Window e tail frames sent)
    (hroom : frames.length < sent + cfg.capacity.toNat) (f : WireFrame cfg) :
    Window { e with
        txRing := Function.update e.txRing (cfg.slot e.txHead) f, txHead := e.txHead + 1 }
      tail (frames ++ [f]) sent := by
  have hle := h.sent_le
  have hslot : cfg.slot e.txHead = frames.length % cfg.capacity.toNat := by
    rw [h.head_eq, Config.slot_ofNat hpos]
  refine ⟨?_, h.tail_eq, ?_, ?_, fun i hi hsi => ?_, h.inflight_lt⟩
  · rw [List.length_append, List.length_singleton, BitVec.ofNat_add, ← h.head_eq]
    rfl
  · rw [List.length_append]
    omega
  · rw [List.length_append, List.length_singleton]
    omega
  · rw [List.length_append, List.length_singleton] at hi
    by_cases hlast : i = frames.length
    · subst hlast
      simp [hslot]
    · have hi' : i < frames.length := by omega
      have hne : i % cfg.capacity.toNat ≠ cfg.slot e.txHead := by
        rw [hslot]
        exact mod_ne hi' (by omega)
      rw [List.getElem_append_left hi']
      simp only [Function.update_of_ne hne]
      exact h.ring i hi' hsi

theorem advance (h : Window e tail frames sent) (hlt : sent < frames.length) :
    Window { e with txInflight := 0 } (tail + 1) frames (sent + 1) := by
  have hroom := h.room
  refine ⟨h.head_eq, ?_, hlt, by omega, fun i hi hsi => h.ring i hi (by omega), cfg.frameSize_pos⟩
  rw [BitVec.ofNat_add, ← h.tail_eq]
  rfl

/-! ## The loop of `poll_tx` -/

/-- Whatever the socket answers, the tail moves on by the frames whose last byte it took. -/
theorem txLoop_window (os : List SendOutcome)
    (h : Window e tail frames sent) :
    Window (txLoop e.txHead os e tail).endpoint (txLoop e.txHead os e tail).tail frames
      (sent + (e.txInflight + (txLoop e.txHead os e tail).data.length) / cfg.frameSize) := by
  have hstop : ∀ {e : Endpoint cfg} {tail sent}, Window e tail frames sent →
      Window e tail frames (sent + (e.txInflight + ([] : List UInt8).length) / cfg.frameSize) := by
    intro e tail sent h
    rw [List.length_nil, Nat.add_zero, Nat.div_eq_of_lt h.inflight_lt]
    exact h
  induction os generalizing e tail sent with
  | nil => exact hstop h
  | cons o os ih =>
    by_cases hlt : tail < e.txHead
    · cases o with
      | wouldBlock => simpa only [txLoop, hlt, if_true] using hstop h
      | failed =>
        simp only [txLoop, hlt, if_true, List.length_nil, Nat.add_zero,
          Nat.div_eq_of_lt h.inflight_lt]
        exact h.markDead
      | sent n =>
        have hfs := h.inflight_lt
        have hsum : e.txInflight + max 1 (min n (cfg.frameSize - e.txInflight)) ≤
            cfg.frameSize := by
          omega
        have hlen : ((((e.txRing (cfg.slot tail)).bytes).drop e.txInflight).take
            (max 1 (min n (cfg.frameSize - e.txInflight)))).length =
            max 1 (min n (cfg.frameSize - e.txInflight)) := by
          rw [List.length_take, List.length_drop, WireFrame.length_eq]
          omega
        unfold txLoop
        simp only [hlt, if_true, List.length_append, hlen, ← Nat.add_assoc]
        split_ifs with hfull
        · have hrest := ih (h.advance (h.sent_lt hlt))
          rw [hfull, Nat.add_div_left _ cfg.frameSize_pos]
          simp only [Nat.zero_add] at hrest
          rw [Nat.add_succ, ← Nat.succ_add]
          exact hrest
        · have hpart : Window { e with
              txInflight := e.txInflight + max 1 (min n (cfg.frameSize - e.txInflight)) }
              tail frames sent :=
            h.of_tx rfl rfl (lt_of_le_of_ne hsum hfull)
          exact ih hpart
    · simpa only [txLoop, hlt, if_false] using hstop h

/-- The rest of the current frame, then the frames behind it. -/
theorem wire_drop (hsent : sent < frames.length) {i : ℕ} (hi : i ≤ cfg.frameSize) :
    (wire (frames.drop sent)).flatten.drop i =
      frames[sent].bytes.drop i ++ (wire (frames.drop (sent + 1))).flatten := by
  have hlen : i ≤ frames[sent].bytes.length := by
    rw [WireFrame.length_eq]
    exact hi
  rw [List.drop_eq_getElem_cons hsent]
  simp only [wire, List.map_cons, List.flatten_cons]
  exact List.drop_append_of_le_length hlen

/-- A socket that takes every frame whole gets all frames from the tail on, if the counters are in
order. -/
theorem txLoop_drains (hpos : 0 < cfg.capacity.toNat) (os : List SendOutcome)
    (h : Window e tail frames sent) (hle : tail ≤ e.txHead)
    (hlen : frames.length - sent ≤ os.length)
    (htakes : ∀ o ∈ os, ∃ n, o = .sent n ∧ cfg.frameSize ≤ n) :
    (txLoop e.txHead os e tail).tail = e.txHead ∧
      (txLoop e.txHead os e tail).data =
        (wire (frames.drop sent)).flatten.drop e.txInflight ∧
      (txLoop e.txHead os e tail).endpoint.txHead = e.txHead ∧
      (txLoop e.txHead os e tail).endpoint.isDead = e.isDead := by
  have hdone : ∀ {e : Endpoint cfg} {tail sent}, Window e tail frames sent →
      frames.length - sent = 0 → tail = e.txHead ∧
        [] = (wire (frames.drop sent)).flatten.drop e.txInflight := by
    intro e tail sent h hzero
    have hsent : sent = frames.length := Nat.le_antisymm h.sent_le (by omega)
    rw [h.tail_eq, h.head_eq, hsent, List.drop_length]
    exact ⟨rfl, List.drop_nil.symm⟩
  -- the distance of the counters is what is left to send, so the comparison ends the loop in time
  induction os generalizing e tail sent with
  | nil =>
    obtain ⟨htail, hdata⟩ := hdone h (Nat.le_zero.mp hlen)
    exact ⟨htail, hdata, rfl, rfl⟩
  | cons o os ih =>
    have hdist := h.tail_le_iff.mp hle
    obtain ⟨n, rfl, hn⟩ := htakes o (by simp)
    by_cases hlt : tail < e.txHead
    · have hsent := h.sent_lt hlt
      have hfs := h.inflight_lt
      have hwhole : max 1 (min n (cfg.frameSize - e.txInflight)) =
          cfg.frameSize - e.txInflight := by omega
      have hoffset : e.txInflight + (cfg.frameSize - e.txInflight) = cfg.frameSize := by omega
      have htake : (frames[sent].bytes.drop e.txInflight).take (cfg.frameSize - e.txInflight) =
          frames[sent].bytes.drop e.txInflight :=
        List.take_of_length_le (by rw [List.length_drop, WireFrame.length_eq])
      have hnext : tail + 1 ≤ e.txHead := by
        have hw := e.txHead.isLt
        rw [BitVec.lt_def] at hlt
        rw [BitVec.le_def, toNat_succ (by omega)]
        exact hlt
      rw [List.length_cons] at hlen
      obtain ⟨htail, hdata, hhead, hdead⟩ := ih (h.advance hsent) hnext (by omega)
        fun o ho => htakes o (by simp [ho])
      unfold txLoop
      simp only [hlt, if_true, hwhole, hoffset, h.current hpos hsent, htake]
      refine ⟨htail, ?_, hhead, hdead⟩
      rw [wire_drop hsent (Nat.le_of_lt hfs)]
      exact congrArg _ hdata
    · have hzero : frames.length - sent = 0 := by
        rw [BitVec.lt_def] at hlt
        omega
      obtain ⟨htail, hdata⟩ := hdone h hzero
      simp only [txLoop, hlt, if_false]
      exact ⟨htail, hdata, trivial, trivial⟩

end Window

/-! ## What a run of calls leaves -/

/-- The frame that `push` makes of an event. -/
def FrameOf (f : WireFrame cfg) (p : Payload cfg) : Prop :=
  typeIdOf f.bytes = cfg.typeId ∧ payloadOf cfg f.bytes = p.bytes

def EndpointInv (es : List (EndpointEvent cfg)) (e : Endpoint cfg) : Prop :=
  ∃ frames, Window e e.txTail frames (completedFrames es) ∧
    List.Forall₂ FrameOf frames (acceptedPayloads es)

namespace EndpointInv
variable {es : List (EndpointEvent cfg)} {e : Endpoint cfg}

theorem fresh (txRing : ℕ → WireFrame cfg) (rxStaging : List UInt8) :
    EndpointInv [] (.fresh txRing rxStaging) :=
  ⟨[], Window.fresh txRing rxStaging, .nil⟩

/-- A call that neither accepts an event nor sends. -/
theorem quiet (h : EndpointInv es e) {ev : EndpointEvent cfg} (hacc : ev.accepted? = none)
    (hsent : ev.completed = 0) {e' : Endpoint cfg} (htail : e'.txTail = e.txTail)
    (hkeep : ∀ frames sent, Window e e.txTail frames sent → Window e' e.txTail frames sent) :
    EndpointInv (es ++ [ev]) e' := by
  obtain ⟨frames, hwin, hcarry⟩ := h
  refine ⟨frames, ?_, ?_⟩
  · rw [completedFrames_snoc, hsent, htail]
    exact hkeep _ _ hwin
  · rw [acceptedPayloads_snoc, hacc]
    simpa using hcarry

theorem accept (hpos : 0 < cfg.capacity.toNat) (h : EndpointInv es e) (p : Payload cfg)
    (hroom : ¬ cfg.capacity ≤ e.txHead - e.txTail) :
    EndpointInv (es ++ [.accepted p]) { e with
      txRing := Function.update e.txRing (cfg.slot e.txHead)
        ((e.txRing (cfg.slot e.txHead)).fill p)
      txHead := e.txHead + 1 } := by
  obtain ⟨frames, hwin, hcarry⟩ := h
  rw [hwin.full_iff, not_le] at hroom
  refine ⟨frames ++ [(e.txRing (cfg.slot e.txHead)).fill p], ?_, ?_⟩
  · rw [completedFrames_snoc]
    exact hwin.push hpos hroom _
  · rw [acceptedPayloads_snoc]
    exact List.rel_append hcarry
      (.cons ⟨typeIdOf_fill _ p, payloadOf_fill _ p⟩ .nil)

theorem pollTx (h : EndpointInv es e) (os : List SendOutcome) :
    EndpointInv (es ++ [.sent (e.pollTx os).2
      ((e.txInflight + (e.pollTx os).2.length) / cfg.frameSize)]) (e.pollTx os).1 := by
  obtain ⟨frames, hwin, hcarry⟩ := h
  refine ⟨frames, ?_, ?_⟩
  · rw [completedFrames_snoc]
    unfold Endpoint.pollTx
    split_ifs with hdead
    · simp only [EndpointEvent.completed, List.length_nil, Nat.add_zero,
        Nat.div_eq_of_lt hwin.inflight_lt]
      exact hwin
    · have hloop := hwin.txLoop_window os
      exact hloop.of_tx rfl rfl hloop.inflight_lt
  · rw [acceptedPayloads_snoc]
    simpa [EndpointEvent.accepted?] using hcarry

theorem step (hpos : 0 < cfg.capacity.toNat) (h : EndpointInv es e) {a : EndpointAction cfg}
    {e' : Endpoint cfg} {event : EndpointEvent cfg} (hstep : endpointStep e a = some (e', event)) :
    EndpointInv (es ++ [event]) e' := by
  cases a with
  | bind fd =>
    cases hstep
    exact h.quiet rfl rfl rfl fun _ _ hw => hw.of_tx rfl rfl hw.inflight_lt
  | push ev =>
    rcases endpointStep_push hstep with ⟨rfl, rfl⟩ | ⟨p, _, hroom, rfl, rfl⟩
    · exact h.quiet rfl rfl rfl fun _ _ hw => hw
    · exact h.accept hpos p hroom
  | pollTx os =>
    cases hstep
    exact h.pollTx os
  | pollRx os answers arrived =>
    cases hstep
    have hkept := pollRx_txKept anyDomain e os answers arrived
    exact h.quiet rfl rfl hkept.2.2.1 fun _ _ hw => hw.of_txKept hkept

theorem of_exec (hpos : 0 < cfg.capacity.toNat) {txRing : ℕ → WireFrame cfg}
    {rxStaging : List UInt8}
    (h : Exec endpointStep (fun _ _ => True) (.fresh txRing rxStaging) es e) : EndpointInv es e :=
  h.invariant EndpointInv (fresh txRing rxStaging) fun _ _ _ _ _ hinv _ hs => hinv.step hpos hs

end EndpointInv

/-! ## Draining -/

/-- The socket takes each of the next `n` frames whole. -/
def AcceptsAll (cfg : Config w) (outcomes : List SendOutcome) (n : ℕ) : Prop :=
  n ≤ outcomes.length ∧ ∀ o ∈ outcomes, ∃ k, o = .sent k ∧ cfg.frameSize ≤ k

/-- `poll_tx` sends exactly the events `pending`, in order, empties the ring, and room is back. What
an earlier `poll_tx` sent of the first frame is not sent again. -/
def Drains (e : Endpoint cfg) (outcomes : List SendOutcome) (pending : List (Payload cfg)) : Prop :=
  (∃ frames, List.Forall₂ FrameOf frames pending ∧
    (e.pollTx outcomes).2 = (wire frames).flatten.drop e.txInflight) ∧
  (e.pollTx outcomes).1.txTail = e.txHead ∧ (e.pollTx outcomes).1.txHead = e.txHead ∧
  ∀ p, ((e.pollTx outcomes).1.push (some p)).2.1 = true

theorem push_of_empty (hpos : 0 < cfg.capacity.toNat) {e : Endpoint cfg} (halive : e.isDead = false)
    (hempty : e.txTail = e.txHead) (p : Payload cfg) : (e.push (some p)).2.1 = true := by
  have hroom : ¬ cfg.capacity ≤ e.txHead - e.txTail := by
    rw [hempty, BitVec.sub_self, BitVec.le_def]
    simpa [Nat.pos_iff_ne_zero] using hpos
  rw [Endpoint.push_accepted halive hroom]

/-- With only the head wrapped, `poll_tx` sees an empty ring. -/
theorem pollTx_wrapped {e : Endpoint cfg} (hwrap : ¬ e.txTail ≤ e.txHead)
    (outcomes : List SendOutcome) : e.pollTx outcomes = (e, []) := by
  have hlt : ¬ e.txTail < e.txHead := fun h => hwrap (BitVec.le_of_lt h)
  unfold Endpoint.pollTx
  cases outcomes with
  | nil => simp [txLoop]
  | cons o os => simp [txLoop, hlt]

theorem Window.drains (hpos : 0 < cfg.capacity.toNat) {e : Endpoint cfg}
    {frames : List (WireFrame cfg)} {sent : ℕ} (h : Window e e.txTail frames sent)
    (halive : e.isDead = false) (hle : e.txTail ≤ e.txHead) {outcomes : List SendOutcome}
    (hsock : AcceptsAll cfg outcomes (frames.length - sent)) {payloads : List (Payload cfg)}
    (hcarry : List.Forall₂ FrameOf frames payloads) :
    Drains e outcomes (payloads.drop sent) := by
  obtain ⟨htail, hdata, hhead, hdead⟩ := h.txLoop_drains hpos outcomes hle hsock.1 hsock.2
  have hpoll : e.pollTx outcomes =
      ({ (txLoop e.txHead outcomes e e.txTail).endpoint with
          txTail := (txLoop e.txHead outcomes e e.txTail).tail },
        (txLoop e.txHead outcomes e e.txTail).data) := by
    simp [Endpoint.pollTx, halive]
  unfold Drains
  rw [hpoll]
  refine ⟨⟨frames.drop sent, List.forall₂_drop sent hcarry, hdata⟩, htail, hhead, fun p => ?_⟩
  apply push_of_empty hpos
  · exact hdead.trans halive
  · exact htail.trans hhead.symm

/-! ## After the head has wrapped -/

theorem Window.push_wrapped (hpos : 0 < cfg.capacity.toNat) {e : Endpoint cfg} {tail : BitVec w}
    {frames : List (WireFrame cfg)} {sent : ℕ} (h : Window e tail frames sent)
    (hroom : frames.length < sent + cfg.capacity.toNat) (hwrap : ¬ tail ≤ e.txHead) :
    ¬ tail ≤ e.txHead + 1 := by
  intro hle
  have hnew := (h.push hpos hroom (e.txRing 0)).tail_le_iff.mp hle
  have hsucc : (e.txHead + 1).toNat ≤ e.txHead.toNat + 1 := by
    rw [BitVec.toNat_add]
    refine (Nat.mod_le _ _).trans (Nat.add_le_add_left ?_ _)
    exact Nat.mod_le 1 (2 ^ w)
  have hsent := h.sent_le
  simp only [List.length_append, List.length_singleton] at hnew
  apply hwrap
  rw [BitVec.le_def]
  omega

/-- Only the head has wrapped, and nothing of the trace `fs` sent a byte. -/
structure Stuck (tail : BitVec w) (fs : List (EndpointEvent cfg)) (e : Endpoint cfg) : Prop where
  window : ∃ frames sent, Window e tail frames sent
  tail_eq : e.txTail = tail
  wrapped : ¬ tail ≤ e.txHead
  silent : ∀ data n, .sent data n ∈ fs → data = []

namespace Stuck
variable {tail : BitVec w} {fs : List (EndpointEvent cfg)} {e : Endpoint cfg}

theorem silent_snoc (h : Stuck tail fs e) {ev : EndpointEvent cfg}
    (hev : ∀ data n, .sent data n = ev → data = []) (data : List UInt8) (n : ℕ)
    (hmem : .sent data n ∈ fs ++ [ev]) : data = [] := by
  rcases List.mem_append.mp hmem with hold | hlast
  · exact h.silent data n hold
  · exact hev data n (List.mem_singleton.mp hlast)

theorem step (hpos : 0 < cfg.capacity.toNat) (h : Stuck tail fs e) {a : EndpointAction cfg}
    {e' : Endpoint cfg} {event : EndpointEvent cfg} (hstep : endpointStep e a = some (e', event)) :
    Stuck tail (fs ++ [event]) e' := by
  obtain ⟨frames, sent, hwin⟩ := h.window
  cases a with
  | bind fd =>
    cases hstep
    exact ⟨⟨frames, sent, hwin.of_tx rfl rfl hwin.inflight_lt⟩, h.tail_eq, h.wrapped,
      h.silent_snoc nofun⟩
  | push ev =>
    have hsame : Stuck tail (fs ++ [.rejected]) e :=
      ⟨h.window, h.tail_eq, h.wrapped, h.silent_snoc nofun⟩
    rcases endpointStep_push hstep with ⟨rfl, rfl⟩ | ⟨p, _, hroom, rfl, rfl⟩
    · exact hsame
    · rw [h.tail_eq, hwin.full_iff, not_le] at hroom
      exact ⟨⟨_, sent, hwin.push hpos hroom _⟩, h.tail_eq, hwin.push_wrapped hpos hroom h.wrapped,
        h.silent_snoc nofun⟩
  | pollTx os =>
    have hpoll : e.pollTx os = (e, []) := by
      apply pollTx_wrapped
      rw [h.tail_eq]
      exact h.wrapped
    simp only [endpointStep, hpoll] at hstep
    cases hstep
    refine ⟨h.window, h.tail_eq, h.wrapped, h.silent_snoc fun data n heq => ?_⟩
    cases heq
    rfl
  | pollRx os answers arrived =>
    cases hstep
    have hkept := pollRx_txKept anyDomain e os answers arrived
    refine ⟨⟨frames, sent, hwin.of_txKept hkept⟩, hkept.2.2.1.trans h.tail_eq, ?_,
      h.silent_snoc nofun⟩
    rw [hkept.2.1]
    exact h.wrapped

end Stuck

/-- A conduit whose head alone has wrapped stays so under any further calls, and never sends
another byte. -/
theorem wrapped_never_sends (hpos : 0 < cfg.capacity.toNat) {txRing : ℕ → WireFrame cfg}
    {rxStaging : List UInt8} {es : List (EndpointEvent cfg)} {e : Endpoint cfg}
    (hrun : Exec endpointStep (fun _ _ => True) (.fresh txRing rxStaging) es e)
    (hwrap : ¬ e.txTail ≤ e.txHead) {fs : List (EndpointEvent cfg)} {e' : Endpoint cfg}
    (hmore : Exec endpointStep (fun _ _ => True) e fs e') : Stuck e.txTail fs e' := by
  obtain ⟨frames, hwin, _⟩ := EndpointInv.of_exec hpos hrun
  refine hmore.invariant (Stuck e.txTail) ⟨⟨frames, _, hwin⟩, rfl, hwrap, nofun⟩ ?_
  intro fs s a t ev hstuck _ hstep
  exact hstuck.step hpos hstep

theorem alive_of_push {e : Endpoint cfg} {p : Payload cfg} (h : (e.push (some p)).2.1 = true) :
    e.isDead = false := by
  cases hdead : e.isDead with
  | false => rfl
  | true =>
    rw [Endpoint.push_dead hdead] at h
    cases h

theorem endpointStep_push_empty (hpos : 0 < cfg.capacity.toNat) {e : Endpoint cfg}
    (halive : e.isDead = false) (hempty : e.txTail = e.txHead) (p : Payload cfg) :
    endpointStep e (.push (some p)) = some ((e.push (some p)).1, .accepted p) := by
  simp [endpointStep, push_of_empty hpos halive hempty p]

theorem push_alive {e : Endpoint cfg} (halive : e.isDead = false) (ev : Option (Payload cfg)) :
    (e.push ev).1.isDead = false := by
  rcases e.push_cases ev with hpush | ⟨p, _, _, _, hpush⟩
  · rw [hpush]
    exact halive
  · rw [hpush]
    exact halive

/-- Any number of pushes short of `2 ^ w`, each followed by a `poll_tx` that drains the ring. -/
theorem drained_run (hpos : 0 < cfg.capacity.toNat) (txRing : ℕ → WireFrame cfg)
    (rxStaging : List UInt8) (p : Payload cfg) {n : ℕ} (hn : n < 2 ^ w) :
    ∃ es e, Exec endpointStep (fun _ _ => True) (.fresh txRing rxStaging) es e ∧
      e.isDead = false ∧ e.txTail = e.txHead ∧ (acceptedPayloads es).length = n := by
  induction n with
  | zero =>
    exact ⟨_, _, Exec.nil.snoc (a := .bind 1) trivial rfl, rfl, rfl, rfl⟩
  | succ n ih =>
    obtain ⟨es, e, hrun, halive, hempty, hlen⟩ := ih (by omega)
    have hpush := hrun.snoc trivial (endpointStep_push_empty hpos halive hempty p)
    have hlen' : (acceptedPayloads (es ++ [.accepted p])).length = n + 1 := by
      rw [acceptedPayloads_snoc, List.length_append, hlen]
      rfl
    obtain ⟨frames, hwin, hcarry⟩ := EndpointInv.of_exec hpos hpush
    have hle := hwin.tail_le_of_few (by rw [hcarry.length_eq, hlen']; exact hn)
    have hsock : AcceptsAll cfg (List.replicate frames.length (.sent cfg.frameSize))
        (frames.length - completedFrames (es ++ [.accepted p])) :=
      ⟨by simp, fun o ho => ⟨_, List.eq_of_mem_replicate ho, Nat.le_refl _⟩⟩
    have hdrains := hwin.drains hpos (push_alive halive _) hle hsock hcarry
    refine ⟨_, _, hpush.snoc (a := .pollTx _) trivial rfl, alive_of_push (hdrains.2.2.2 p),
      hdrains.2.1.trans hdrains.2.2.1.symm, ?_⟩
    rw [acceptedPayloads_snoc]
    simpa [EndpointEvent.accepted?] using hlen'

/-- Every width and capacity gets there: with push number `2 ^ w` only the head has wrapped. -/
theorem wrap_reached (hpos : 0 < cfg.capacity.toNat) (txRing : ℕ → WireFrame cfg)
    (rxStaging : List UInt8) (p : Payload cfg) :
    ∃ es e, Exec endpointStep (fun _ _ => True) (.fresh txRing rxStaging) es e ∧
      e.isDead = false ∧ (acceptedPayloads es).length = 2 ^ w ∧ ¬ e.txTail ≤ e.txHead := by
  have hcap := cfg.capacity.isLt
  obtain ⟨es, e, hrun, halive, hempty, hlen⟩ :=
    drained_run hpos txRing rxStaging p (n := 2 ^ w - 1) (by omega)
  have hpush := hrun.snoc trivial (endpointStep_push_empty hpos halive hempty p)
  have hlen' : (acceptedPayloads (es ++ [.accepted p])).length = 2 ^ w := by
    rw [acceptedPayloads_snoc, List.length_append, hlen]
    simp only [EndpointEvent.accepted?, Option.toList_some, List.length_singleton]
    omega
  refine ⟨_, _, hpush, push_alive halive _, hlen', fun hle => ?_⟩
  obtain ⟨before, hbefore, hcarry⟩ := EndpointInv.of_exec hpos hrun
  obtain ⟨after, hafter, hcarry'⟩ := EndpointInv.of_exec hpos hpush
  have hsent : completedFrames es ≤ 2 ^ w - 1 := by
    rw [← hlen, ← hcarry.length_eq]
    exact hbefore.sent_le
  have hdist := hafter.tail_le_iff.mp hle
  -- the head shows 0 although a frame is left
  rw [hafter.head_eq, hcarry'.length_eq, hlen', completedFrames_snoc, BitVec.toNat_ofNat,
    Nat.mod_self] at hdist
  simp only [EndpointEvent.completed] at hdist
  omega

/-- After any number of pushes `poll_tx` on a live endpoint with a socket that takes everything
drains the ring if and only if the counters are in order, as they are until `2 ^ w` pushes. -/
theorem poll_tx_drains_iff (hpos : 0 < cfg.capacity.toNat) {txRing : ℕ → WireFrame cfg}
    {rxStaging : List UInt8} {es : List (EndpointEvent cfg)} {e : Endpoint cfg}
    (hrun : Exec endpointStep (fun _ _ => True) (.fresh txRing rxStaging) es e)
    (halive : e.isDead = false) {outcomes : List SendOutcome}
    (hsock : AcceptsAll cfg outcomes (e.txHead - e.txTail).toNat) :
    ((acceptedPayloads es).drop (completedFrames es)).length = (e.txHead - e.txTail).toNat ∧
      (Drains e outcomes ((acceptedPayloads es).drop (completedFrames es)) ↔
        e.txTail ≤ e.txHead) ∧
      ((acceptedPayloads es).length < 2 ^ w → e.txTail ≤ e.txHead) := by
  obtain ⟨frames, hwin, hcarry⟩ := EndpointInv.of_exec hpos hrun
  have hlen := hcarry.length_eq
  refine ⟨?_, ⟨fun hdrains => ?_, fun hle => ?_⟩, fun hfew => ?_⟩
  · rw [List.length_drop, hwin.distance, hlen]
  · by_contra hwrap
    have htail : e.txTail = e.txHead := by
      have := hdrains.2.1
      rwa [pollTx_wrapped hwrap] at this
    exact hwrap (htail ▸ BitVec.le_refl _)
  · rw [hwin.distance] at hsock
    exact hwin.drains hpos halive hle hsock hcarry
  · exact hwin.tail_le_of_few (hlen ▸ hfew)

/-- Two frames in the ring of an endpoint whose counters have not wrapped. -/
theorem poll_tx_drains_iff_two_pending :
    ∃ es, ∃ e : Endpoint tinyConfig,
      Exec endpointStep (fun _ _ => True) (.fresh (fun _ => ⟨List.replicate 64 0, rfl⟩) []) es e ∧
      e.txTail ≤ e.txHead ∧
      Drains e [.sent 64, .sent 64] [⟨[7], rfl⟩, ⟨[8], rfl⟩] := by
  have hrun := exec_of_run (show run endpointStep (fun _ _ => True)
    (.fresh (fun _ => (⟨List.replicate 64 0, rfl⟩ : WireFrame tinyConfig)) [])
    [.bind 1, .push (some ⟨[6], rfl⟩), .pollTx [.sent 64], .push (some ⟨[7], rfl⟩),
      .push (some ⟨[8], rfl⟩)] = some (_, _) from rfl)
  have hsock : AcceptsAll tinyConfig [.sent 64, .sent 64] 2 := by
    refine ⟨Nat.le_refl 2, fun o ho => ⟨64, ?_, by decide⟩⟩
    simpa using ho
  obtain ⟨_, hiff, _⟩ := poll_tx_drains_iff (by decide) hrun rfl hsock
  exact ⟨_, _, hrun, by decide, hiff.mpr (by decide)⟩

def twoBitConfig : Config 2 := ⟨[9, 0, 0, 0], sampleTypeId_length, 1, 2, rfl⟩

/-- Counters of two bits and a ring of two frames. The fourth push wraps the head; from then on
`poll_tx` sends nothing of the two frames in the ring, and no push is accepted. -/
theorem wrapped_head_stalls :
    ∃ es, ∃ e : Endpoint twoBitConfig,
      Exec endpointStep (fun _ _ => True)
        (.fresh (fun _ => ⟨List.replicate 64 0, rfl⟩) []) es e ∧
      e.isDead = false ∧ AcceptsAll twoBitConfig [.sent 64, .sent 64] (e.txHead - e.txTail).toNat ∧
      (acceptedPayloads es).drop (completedFrames es) = [⟨[7], rfl⟩, ⟨[8], rfl⟩] ∧
      (e.pollTx [.sent 64, .sent 64]).2 = [] ∧
      ¬ Drains e [.sent 64, .sent 64] [⟨[7], rfl⟩, ⟨[8], rfl⟩] ∧
      ((e.pollTx [.sent 64, .sent 64]).1.push (some ⟨[9], rfl⟩)).2.1 = false := by
  refine ⟨_, _, exec_of_run (show run endpointStep (fun _ _ => True)
    (.fresh (fun _ => (⟨List.replicate 64 0, rfl⟩ : WireFrame twoBitConfig)) [])
    [.bind 1, .push (some ⟨[4], rfl⟩), .pollTx [.sent 64], .push (some ⟨[5], rfl⟩),
      .pollTx [.sent 64], .push (some ⟨[6], rfl⟩), .pollTx [.sent 64], .push (some ⟨[7], rfl⟩),
      .push (some ⟨[8], rfl⟩)] = some (_, _) from rfl), rfl, ⟨by decide, ?_⟩, rfl, rfl,
    fun h => absurd h.2.1 (by decide), rfl⟩
  intro o ho
  exact ⟨64, by simpa using ho, by decide⟩

end ConduitRuntime.Net
