import ConduitRuntime.Net.Delivery

/-! The polling loops keep the invariant of each direction, and so does every call on a link. -/
namespace ConduitRuntime.Net
open Execution MaskedIndex
set_option autoImplicit false
set_option maxRecDepth 20000

variable {w : ℕ} {cfg : Config w}

/-! ## The loop of `poll_tx` -/

/-- The receiving half is untouched, or the endpoint died. -/
def RxKept (e e' : Endpoint cfg) : Prop :=
  e'.sock = e.sock ∧ e'.rxStaging = e.rxStaging ∧
    ((e'.isDead = e.isDead ∧ e'.rxBytesRead = e.rxBytesRead) ∨
      (e'.isDead = true ∧ e'.rxBytesRead = 0))

theorem markDead_rxKept {e : Endpoint cfg} (h : e.isDead = false) : RxKept e e.markDead := by
  simp [RxKept, Endpoint.markDead, h]

theorem txLoop_rxKept (head : BitVec w) (os : List SendOutcome) {e : Endpoint cfg}
    (h : e.isDead = false) (tail : BitVec w) : RxKept e (txLoop head os e tail).endpoint := by
  induction os generalizing e tail with
  | nil => exact ⟨rfl, rfl, .inl ⟨rfl, rfl⟩⟩
  | cons o os ih =>
    unfold txLoop
    by_cases hlt : tail < head
    · cases o with
      | sent n =>
        simp only [hlt, if_true]
        split_ifs
        · exact ih (e := { e with txInflight := 0 }) h (tail + 1)
        · exact ih (e := { e with
            txInflight := e.txInflight + max 1 (min n (cfg.frameSize - e.txInflight)) }) h tail
      | wouldBlock =>
        simp only [hlt, if_true]
        exact ⟨rfl, rfl, .inl ⟨rfl, rfl⟩⟩
      | failed =>
        simp only [hlt, if_true]
        exact markDead_rxKept h
    · simp only [hlt, if_false]
      exact ⟨rfl, rfl, .inl ⟨rfl, rfl⟩⟩

section Loops
variable {frames : List (WireFrame cfg)} {start : ℕ → ℕ} {peer : Endpoint cfg}

theorem update_append_append (f : ℕ → List UInt8) (k : ℕ) (x y : List UInt8) :
    Function.update (Function.update f k (f k ++ x)) k (Function.update f k (f k ++ x) k ++ y) =
      Function.update f k (f k ++ (x ++ y)) := by
  simp [List.append_assoc]

/-- The loop sends the frames from the tail on, in order, and stops anywhere. -/
theorem txLoop_spec {taken : ℕ → ℕ} {received : List Received} (os : List SendOutcome)
    {e : Endpoint cfg} {tail : BitVec w} {stream : ℕ → List UInt8} (halive : e.isDead = false)
    (hs : Sender e tail frames start stream)
    (hr : Receiver peer tail frames start stream taken received) :
    Sender (txLoop e.txHead os e tail).endpoint (txLoop e.txHead os e tail).tail frames start
        (Function.update stream e.sock (stream e.sock ++ (txLoop e.txHead os e tail).data)) ∧
      Receiver peer (txLoop e.txHead os e tail).tail frames start
        (Function.update stream e.sock (stream e.sock ++ (txLoop e.txHead os e tail).data))
        taken received := by
  induction os generalizing e tail stream with
  | nil => simpa [txLoop] using ⟨hs, hr⟩
  | cons o os ih =>
    by_cases hlt : tail < e.txHead
    · cases o with
      | wouldBlock => simpa [txLoop, hlt] using ⟨hs, hr⟩
      | failed => simpa [txLoop, hlt] using ⟨hs.markDead, hr⟩
      | sent n =>
        have hfs := hs.inflight_lt
        have htail : tail.toNat < frames.length := by
          rw [← hs.head_eq]
          exact hlt
        have hw := e.txHead.isLt
        have hhead := hs.head_eq
        have hsum : e.txInflight + max 1 (min n (cfg.frameSize - e.txInflight)) ≤
            cfg.frameSize := by
          omega
        unfold txLoop
        simp only [hlt, if_true]
        by_cases hfull : e.txInflight + max 1 (min n (cfg.frameSize - e.txInflight)) = cfg.frameSize
        · simp only [hfull, if_true, ← update_append_append]
          have hnext : (tail + 1).toNat = tail.toNat + 1 := toNat_succ (by omega)
          refine ih (e := { e with txInflight := 0 }) halive ?_ ?_
          · exact hs.send_frame halive htail hfull
          · exact hr.extend hs halive _ (by omega)
        · simp only [hfull, if_false, ← update_append_append]
          refine ih (e := { e with
            txInflight := e.txInflight + max 1 (min n (cfg.frameSize - e.txInflight)) })
            halive ?_ ?_
          · exact hs.send_part halive htail (by omega)
          · exact hr.extend hs halive _ (Nat.le_refl _)
    · simpa [txLoop, hlt] using ⟨hs, hr⟩

/-! ## The loop of `poll_rx` -/

/-- The sending half is untouched, or the endpoint died. -/
def TxKept (e e' : Endpoint cfg) : Prop :=
  e'.sock = e.sock ∧ e'.txHead = e.txHead ∧ e'.txTail = e.txTail ∧ e'.txRing = e.txRing ∧
    ((e'.isDead = e.isDead ∧ e'.txInflight = e.txInflight) ∨
      (e'.isDead = true ∧ e'.txInflight = 0))

theorem markDead_txKept {e : Endpoint cfg} (h : e.isDead = false) : TxKept e e.markDead := by
  simp [TxKept, Endpoint.markDead, h]

section Received
variable {P E : Type} (d : DomainSink P E)

theorem rxLoop_txKept (os : List RecvOutcome) {e : Endpoint cfg} (h : e.isDead = false) (p : P)
    (arrived : List UInt8) : TxKept e (rxLoop d os e p arrived).endpoint := by
  induction os generalizing e p arrived with
  | nil => exact ⟨rfl, rfl, rfl, rfl, .inl ⟨rfl, rfl⟩⟩
  | cons o os ih =>
    cases o with
    | wouldBlock => exact ⟨rfl, rfl, rfl, rfl, .inl ⟨rfl, rfl⟩⟩
    | closed => exact markDead_txKept h
    | failed => exact markDead_txKept h
    | got n =>
      have hgo : ∀ staging read p rest, TxKept e
          (rxLoop d os { e with rxStaging := staging, rxBytesRead := read } p rest).endpoint :=
        fun staging read p rest =>
          ih (e := { e with rxStaging := staging, rxBytesRead := read }) h p rest
      have hdead : ∀ staging read,
          TxKept e { e with rxStaging := staging, rxBytesRead := read }.markDead :=
        fun staging read =>
          markDead_txKept (e := { e with rxStaging := staging, rxBytesRead := read }) h
      unfold rxLoop
      dsimp only
      split_ifs
      · exact ⟨rfl, rfl, rfl, rfl, .inl ⟨rfl, rfl⟩⟩
      · exact hdead _ _
      · exact hgo _ _ _ _
      · exact hgo _ _ _ _

theorem pollRx_txKept (e : Endpoint cfg) (os : List RecvOutcome) (p : P) (arrived : List UInt8) :
    TxKept e (e.pollRx d os p arrived).endpoint := by
  unfold Endpoint.pollRx
  split_ifs with hdead
  · exact ⟨rfl, rfl, rfl, rfl, .inl ⟨rfl, rfl⟩⟩
  · exact rxLoop_txKept d os (by simpa using hdead) p arrived

/-- The sink is handed the payloads of the frames for which there was an event. -/
theorem rxLoop_handed (os : List RecvOutcome) (e : Endpoint cfg) (p : P) (arrived : List UInt8) :
    (rxLoop d os e p arrived).handed =
      ((rxLoop d os e p arrived).frames.filter Prod.snd).map Prod.fst := by
  induction os generalizing e p arrived with
  | nil => rfl
  | cons o os ih =>
    cases o with
    | got n =>
      unfold rxLoop
      dsimp only
      split_ifs
      · rfl
      · rfl
      · simp only [List.filter_cons, DomainSink.dispatch_handed, ih]
        split_ifs <;> rfl
      · exact ih _ _ _
    | _ => rfl

theorem pollRx_handed (e : Endpoint cfg) (os : List RecvOutcome) (p : P) (arrived : List UInt8) :
    (e.pollRx d os p arrived).handed =
      ((e.pollRx d os p arrived).frames.filter Prod.snd).map Prod.fst := by
  unfold Endpoint.pollRx
  split_ifs
  · rfl
  · exact rxLoop_handed d os e p arrived

/-- A `recv` completes one frame at most. -/
theorem rxLoop_frames_length (os : List RecvOutcome) (e : Endpoint cfg) (p : P)
    (arrived : List UInt8) : (rxLoop d os e p arrived).frames.length ≤ os.length := by
  induction os generalizing e p arrived with
  | nil => exact Nat.le_refl 0
  | cons o os ih =>
    cases o with
    | got n =>
      unfold rxLoop
      dsimp only
      split_ifs
      · exact Nat.zero_le _
      · exact Nat.zero_le _
      · exact Nat.succ_le_succ (ih _ _ _)
      · exact (ih _ _ _).trans (Nat.le_succ _)
    | _ => exact Nat.zero_le _

theorem pollRx_frames_length (e : Endpoint cfg) (os : List RecvOutcome) (p : P)
    (arrived : List UInt8) : (e.pollRx d os p arrived).frames.length ≤ os.length := by
  unfold Endpoint.pollRx
  split_ifs
  · exact Nat.zero_le _
  · exact rxLoop_frames_length d os e p arrived

/-- What each dispatch keeps of the domain and of the answers of `make` so far, a poll keeps. -/
theorem rxLoop_domain {I : P → List Bool → Prop}
    (hstep : ∀ payload p log, I p log →
      I (d.dispatch payload p).domain (log ++ [(d.dispatch payload p).made]))
    (os : List RecvOutcome) (e : Endpoint cfg) {p : P} {log : List Bool} (h : I p log)
    (arrived : List UInt8) :
    I (rxLoop d os e p arrived).domain (log ++ (rxLoop d os e p arrived).frames.map Prod.snd) := by
  induction os generalizing e p log arrived with
  | nil => simpa [rxLoop] using h
  | cons o os ih =>
    cases o with
    | got n =>
      unfold rxLoop
      dsimp only
      split_ifs
      · simpa using h
      · simpa using h
      · simp only [List.map_cons]
        rw [← List.singleton_append, ← List.append_assoc]
        exact ih _ (hstep _ p log h) _
      · exact ih _ h _
    | _ => simpa [rxLoop] using h

theorem pollRx_domain {I : P → List Bool → Prop}
    (hstep : ∀ payload p log, I p log →
      I (d.dispatch payload p).domain (log ++ [(d.dispatch payload p).made]))
    (os : List RecvOutcome) (e : Endpoint cfg) {p : P} {log : List Bool} (h : I p log)
    (arrived : List UInt8) :
    I (e.pollRx d os p arrived).domain
      (log ++ (e.pollRx d os p arrived).frames.map Prod.snd) := by
  unfold Endpoint.pollRx
  split_ifs
  · simpa using h
  · exact rxLoop_domain d hstep os e h arrived

end Received

theorem anyDomain_dispatch (payload : List UInt8) (answers : List Bool) :
    (anyDomain.dispatch payload answers).domain = answers.tail ∧
      (anyDomain.dispatch payload answers).made = answers.headD false := by
  rcases answers with _ | ⟨_ | _, answers⟩ <;> exact ⟨rfl, rfl⟩

/-- The frames of a poll find an event as `make` answers, in turn. -/
theorem pollRx_made (e : Endpoint cfg) (os : List RecvOutcome) (answers : List Bool)
    (arrived : List UInt8) :
    (e.pollRx anyDomain os answers arrived).frames.map Prod.snd =
      (List.range (e.pollRx anyDomain os answers arrived).frames.length).map
        fun i => answers.getD i false := by
  -- after so many frames that many answers are used up
  have huse := pollRx_domain anyDomain (I := fun p log => p = answers.drop log.length ∧
    log = (List.range log.length).map fun i => answers.getD i false) ?_ os e
    (show answers = answers.drop ([] : List Bool).length ∧ _ from ⟨rfl, rfl⟩) arrived
  · simpa using huse.2
  · rintro payload p log ⟨rfl, hlog⟩
    obtain ⟨hdomain, hmade⟩ := anyDomain_dispatch payload (answers.drop log.length)
    rw [hdomain, hmade, List.length_append, List.length_singleton]
    refine ⟨List.tail_drop, ?_⟩
    rw [List.range_succ, List.map_append, ← hlog, List.headD_eq_head?_getD, List.head?_drop]
    rfl

theorem update_add_add (f : ℕ → ℕ) (k m n : ℕ) :
    Function.update (Function.update f k (f k + m)) k (Function.update f k (f k + m) k + n) =
      Function.update f k (f k + (m + n)) := by
  simp [Nat.add_assoc]

/-- The peer only sends frames of the configured type, so a completed frame is never a mismatch. -/
theorem staged_type {tail : BitVec w} {stream : ℕ → List UInt8} {e : Endpoint cfg} {taken : ℕ → ℕ}
    {received : List Received} (htype : ∀ f ∈ frames, typeIdOf f.bytes = cfg.typeId)
    (hs : Sender peer tail frames start stream)
    (hr : Receiver e tail frames start stream taken received) (halive : e.isDead = false) {m : ℕ}
    (hn : taken e.sock + m ≤ (stream e.sock).length) (hfull : e.rxBytesRead + m = cfg.frameSize) :
    typeIdOf (e.stage (((stream e.sock).drop (taken e.sock)).take m)) = cfg.typeId := by
  obtain ⟨_, hframe⟩ := hr.staged_frame hs halive hn hfull
  rw [← typeIdOf_take cfg, hframe]
  exact htype _ (List.get_mem _ _)

/-- The loop completes frames of the sender, in order, and never meets a foreign type id. -/
theorem rxLoop_spec {P E : Type} (d : DomainSink P E) {tail : BitVec w} {stream : ℕ → List UInt8}
    (os : List RecvOutcome) {e : Endpoint cfg} {p : P} {taken : ℕ → ℕ}
    {received : List Received} (halive : e.isDead = false)
    (htype : ∀ f ∈ frames, typeIdOf f.bytes = cfg.typeId)
    (hs : Sender peer tail frames start stream)
    (hr : Receiver e tail frames start stream taken received) {r : RxResult cfg P}
    (hres : rxLoop d os e p ((stream e.sock).drop (taken e.sock)) = r) :
    Receiver r.endpoint tail frames start stream
        (Function.update taken e.sock (taken e.sock + r.taken))
        (received ++ r.frames.map fun f => ⟨e.sock, f.1, f.2⟩) ∧
      r.mismatch = false := by
  induction os generalizing e p taken received r with
  | nil =>
    subst hres
    simpa [rxLoop] using hr
  | cons o os ih =>
    cases o with
    | wouldBlock =>
      subst hres
      simpa [rxLoop] using hr
    | closed =>
      subst hres
      simpa [rxLoop] using hr.markDead
    | failed =>
      subst hres
      simpa [rxLoop] using hr.markDead
    | got n =>
      by_cases hnil : (stream e.sock).drop (taken e.sock) = []
      · subst hres
        simpa [rxLoop, hnil] using hr
      · obtain ⟨m, hm⟩ : ∃ m, m = max 1 (min n (min (cfg.frameSize - e.rxBytesRead)
            ((stream e.sock).drop (taken e.sock)).length)) := ⟨_, rfl⟩
        have hread := hr.read_lt
        have hlen : 0 < ((stream e.sock).drop (taken e.sock)).length :=
          List.length_pos_iff.mpr hnil
        have hle : m ≤ ((stream e.sock).drop (taken e.sock)).length := by omega
        have hn : taken e.sock + m ≤ (stream e.sock).length := by
          simp only [List.length_drop] at hle hlen
          omega
        unfold rxLoop at hres
        simp only [hnil, if_false, ← hm, List.drop_drop] at hres
        by_cases hfull : e.rxBytesRead + m = cfg.frameSize
        · have htid := staged_type htype hs hr halive hn hfull
          simp only [hfull, if_true, htid, ne_eq, not_true_eq_false, if_false] at hres
          obtain ⟨sunk, hsunk⟩ : ∃ sunk, sunk = d.dispatch
            (payloadOf cfg (e.stage (((stream e.sock).drop (taken e.sock)).take m))) p := ⟨_, rfl⟩
          simp only [← hsunk] at hres
          have hstep := hr.receive_frame hs halive (by omega) hn hfull sunk.made
          have hrec := ih (p := sunk.domain) (by exact halive) hstep (by
            simp only [Function.update_self]
            rfl)
          subst hres
          simp only [update_add_add] at hrec
          simpa using hrec
        · simp only [hfull, if_false] at hres
          have hstep := hr.receive_part halive hn (by omega)
          have hrec := ih (p := p) (by exact halive) hstep (by
            simp only [Function.update_self]
            rfl)
          subst hres
          simp only [update_add_add] at hrec
          simpa using hrec

theorem pollRx_spec {P E : Type} (d : DomainSink P E) {tail : BitVec w} {stream : ℕ → List UInt8}
    (os : List RecvOutcome) {e : Endpoint cfg} (p : P) {taken : ℕ → ℕ} {received : List Received}
    (htype : ∀ f ∈ frames, typeIdOf f.bytes = cfg.typeId)
    (hs : Sender peer tail frames start stream)
    (hr : Receiver e tail frames start stream taken received) {r : RxResult cfg P}
    (hres : e.pollRx d os p ((stream e.sock).drop (taken e.sock)) = r) :
    Receiver r.endpoint tail frames start stream
        (Function.update taken e.sock (taken e.sock + r.taken))
        (received ++ r.frames.map fun f => ⟨e.sock, f.1, f.2⟩) ∧
      r.mismatch = false := by
  unfold Endpoint.pollRx at hres
  split_ifs at hres with hdead
  · subst hres
    simpa using hr
  · exact rxLoop_spec d os (by simpa using hdead) htype hs hr hres

end Loops

/-! ## Calls on a link -/

def Received.event (r : Received) : ℕ × List UInt8 := (r.connection, r.payload)

theorem made_events (k : ℕ) (frames : List (List UInt8 × Bool)) :
    ((frames.filter Prod.snd).map Prod.fst).map (Prod.mk k) =
      ((frames.map fun f => (⟨k, f.1, f.2⟩ : Received)).filter Received.made).map
        Received.event := by
  simp only [List.filter_map, List.map_map]
  rfl

/-- The invariant of the direction from `s` to its peer. -/
structure Direction (l : Link cfg) (s : Side) (frames : List (WireFrame cfg)) : Prop where
  payloads : frames.map (fun f => payloadOf cfg f.bytes) = l.pushed s
  typeIds : ∀ f ∈ frames, typeIdOf f.bytes = cfg.typeId
  sender : Sender (l.ends s) (l.ends s).txTail frames (l.start s) (l.stream s)
  receiver : Receiver (l.ends s.peer) (l.ends s).txTail frames (l.start s) (l.stream s) (l.taken s)
    (l.received s.peer)
  handed : l.handed s.peer = ((l.received s.peer).filter Received.made).map Received.event

def LinkInv (l : Link cfg) : Prop := ∀ s, ∃ frames, Direction l s frames

theorem linkInit_inv (ring : Side → ℕ → WireFrame cfg) (staging : Side → List UInt8) :
    LinkInv (linkInit ring staging) := by
  have hfs := cfg.frameSize_pos
  intro s
  refine ⟨[], rfl, by simp, Sender.fresh _ _ fun _ => rfl, ?_, rfl⟩
  constructor <;> simp [linkInit, Endpoint.fresh, hfs, onConnection]

theorem payloads_length {l : Link cfg} {s : Side} {frames : List (WireFrame cfg)}
    (h : Direction l s frames) : frames.length = (l.pushed s).length := by
  rw [← h.payloads, List.length_map]

namespace LinkInv
variable {l : Link cfg}

/-- A call on side `t` keeps the link when it keeps what `t` sends and what `t` receives. -/
theorem of_sides (h : LinkInv l) {l' : Link cfg} (t : Side)
    (hsend : ∀ frames, Direction l t frames → ∃ frames', Direction l' t frames')
    (hrecv : ∀ frames, Direction l t.peer frames → ∃ frames', Direction l' t.peer frames') :
    LinkInv l' := by
  intro s
  by_cases hst : s = t
  · subst hst
    obtain ⟨frames, hd⟩ := h s
    exact hsend frames hd
  · rw [Side.eq_peer hst]
    obtain ⟨frames, hd⟩ := h t.peer
    exact hrecv frames hd

theorem bind (h : LinkInv l) {s : Side} {k : ℕ} (hdead : (l.ends s).isDead = true)
    (hk : (l.ends s).sock < k) :
    LinkInv { l.setEnd s ((l.ends s).bindSocket k) with
      start := Function.update l.start s
        (Function.update (l.start s) k (l.ends s).txTail.toNat) } := by
  have hpeer := s.peer_ne
  refine h.of_sides s (fun frames hd => ⟨frames, ?_⟩) (fun frames hd => ⟨frames, ?_⟩)
  · refine ⟨hd.payloads, hd.typeIds, ?_, ?_, hd.handed⟩
    · simpa [Link.setEnd] using hd.sender.bindSocket hdead hk
    · simpa [Link.setEnd, hpeer] using hd.receiver.bindSender hd.sender hk
  · have hr := hd.receiver
    rw [Side.peer_peer] at hr
    refine ⟨hd.payloads, hd.typeIds, ?_, ?_, hd.handed⟩
    · simpa [Link.setEnd, hpeer] using hd.sender
    · simpa [Link.setEnd, hpeer] using hr.bindSocket hdead hk

theorem push (h : LinkInv l) {s : Side} (hfew : (l.pushed s).length + 1 < 2 ^ w)
    {p : Payload cfg} (hroom : ¬ cfg.capacity ≤ (l.ends s).txHead - (l.ends s).txTail) :
    LinkInv { l.setEnd s { l.ends s with
        txRing := Function.update (l.ends s).txRing (cfg.slot (l.ends s).txHead)
          (((l.ends s).txRing (cfg.slot (l.ends s).txHead)).fill p)
        txHead := (l.ends s).txHead + 1 } with
      pushed := Function.update l.pushed s (l.pushed s ++ [p.bytes]) } := by
  have hpeer := s.peer_ne
  refine h.of_sides s
    (fun frames hd => ⟨frames ++ [((l.ends s).txRing (cfg.slot (l.ends s).txHead)).fill p], ?_⟩)
    (fun frames hd => ⟨frames, ?_⟩)
  · have hlen := payloads_length hd
    refine ⟨?_, ?_, ?_, ?_, hd.handed⟩
    · simp [hd.payloads, payloadOf_fill]
    · intro f hf
      rcases List.mem_append.mp hf with hf | hf
      · exact hd.typeIds f hf
      · rw [List.mem_singleton.mp hf]
        exact typeIdOf_fill _ _
    · simpa [Link.setEnd] using hd.sender.push (by omega) hroom p
    · simpa [Link.setEnd, hpeer] using hd.receiver.push hd.sender _
  · have hr := hd.receiver
    rw [Side.peer_peer] at hr
    refine ⟨by simpa [hpeer] using hd.payloads, hd.typeIds, ?_, ?_, hd.handed⟩
    · simpa [Link.setEnd, hpeer] using hd.sender
    · have := hr.of_tx { l.ends s with
        txRing := Function.update (l.ends s).txRing (cfg.slot (l.ends s).txHead)
          (((l.ends s).txRing (cfg.slot (l.ends s).txHead)).fill p)
        txHead := (l.ends s).txHead + 1 } rfl rfl (.inl ⟨rfl, rfl⟩)
      simpa [Link.setEnd, hpeer] using this

theorem pollTx (h : LinkInv l) {s : Side} (halive : (l.ends s).isDead = false)
    {r : TxResult cfg} {os : List SendOutcome}
    (hr : txLoop (l.ends s).txHead os (l.ends s) (l.ends s).txTail = r) :
    LinkInv { l.setEnd s { r.endpoint with txTail := r.tail } with
      stream := Function.update l.stream s (Function.update (l.stream s) (l.ends s).sock
        (l.stream s (l.ends s).sock ++ r.data)) } := by
  have hpeer := s.peer_ne
  refine h.of_sides s (fun frames hd => ⟨frames, ?_⟩) (fun frames hd => ⟨frames, ?_⟩)
  · obtain ⟨hs', hr'⟩ := txLoop_spec os halive hd.sender hd.receiver
    rw [hr] at hs' hr'
    refine ⟨hd.payloads, hd.typeIds, ?_, ?_, hd.handed⟩
    · have := hs'.of_rx { r.endpoint with txTail := r.tail } rfl rfl rfl (.inl ⟨rfl, rfl⟩)
      simpa [Link.setEnd] using this
    · simpa [Link.setEnd, hpeer] using hr'
  · have hrecv := hd.receiver
    rw [Side.peer_peer] at hrecv
    obtain ⟨hsock, hstaging, hdead⟩ := txLoop_rxKept (l.ends s).txHead os halive (l.ends s).txTail
    rw [hr] at hsock hstaging hdead
    refine ⟨hd.payloads, hd.typeIds, ?_, ?_, hd.handed⟩
    · simpa [Link.setEnd, hpeer] using hd.sender
    · have := hrecv.of_tx { r.endpoint with txTail := r.tail } hsock hstaging hdead
      simpa [Link.setEnd, hpeer] using this

theorem pollRx (h : LinkInv l) {P E : Type} (d : DomainSink P E) (s : Side)
    (os : List RecvOutcome) (p : P) :
    LinkInv (l.polled s ((l.ends s).pollRx d os p (l.arrived s))) ∧
      ((l.ends s).pollRx d os p (l.arrived s)).mismatch = false := by
  have hpeer := s.peer_ne
  have hhanded := pollRx_handed d (l.ends s) os p (l.arrived s)
  obtain ⟨hsock, hhead, htail, hring, hdead⟩ := pollRx_txKept d (l.ends s) os p (l.arrived s)
  obtain ⟨r, hr⟩ : ∃ r, (l.ends s).pollRx d os p (l.arrived s) = r := ⟨_, rfl⟩
  have hspec : ∀ frames, Direction l s.peer frames → _ := fun frames hd =>
    pollRx_spec d os p hd.typeIds hd.sender (by simpa using hd.receiver) hr
  rw [hr] at hhanded hsock hhead htail hring hdead ⊢
  refine ⟨h.of_sides s (fun frames hd => ⟨frames, ?_⟩) (fun frames hd => ⟨frames, ?_⟩), ?_⟩
  · refine ⟨hd.payloads, hd.typeIds, ?_, ?_, ?_⟩
    · have := hd.sender.of_rx _ hsock hhead hring hdead
      simpa [Link.polled, Link.setEnd, htail] using this
    · simpa [Link.polled, Link.setEnd, hpeer, hpeer.symm, htail] using hd.receiver
    · simpa [Link.polled, hpeer] using hd.handed
  · have hold := hd.handed
    rw [Side.peer_peer] at hold
    refine ⟨hd.payloads, hd.typeIds, ?_, ?_, ?_⟩
    · simpa [Link.polled, Link.setEnd, hpeer] using hd.sender
    · simpa [Link.polled, Link.setEnd, hpeer] using (hspec frames hd).1
    · simp only [Link.polled, Side.peer_peer, Function.update_self, hold, hhanded, made_events,
        List.filter_append, List.map_append]
  · obtain ⟨frames, hd⟩ := h s.peer
    exact (hspec frames hd).2

theorem step (h : LinkInv l) {a : LinkAction cfg} (hok : FewPushes l a) {l' : Link cfg}
    {ev : LinkEvent} (hstep : linkStep l a = some (l', ev)) :
    LinkInv l' ∧ ∀ s, ev ≠ .rxPolled s true := by
  cases a with
  | bind s k =>
    simp only [linkStep] at hstep
    split_ifs at hstep with hcond
    simp only [Option.some.injEq, Prod.mk.injEq] at hstep
    obtain ⟨rfl, rfl⟩ := hstep
    exact ⟨h.bind hcond.1 hcond.2, by simp⟩
  | push s ev =>
    simp only [linkStep, Option.some.injEq, Prod.mk.injEq] at hstep
    obtain ⟨rfl, rfl⟩ := hstep
    refine ⟨?_, by simp⟩
    have hself : l.setEnd s (l.ends s) = l := by simp [Link.setEnd]
    rcases (l.ends s).push_cases ev with hpush | ⟨p, rfl, _, hroom, hpush⟩
    · rw [hpush]
      simpa [hself] using h
    · rw [hpush]
      simpa using h.push hok hroom
  | pollTx s os =>
    simp only [linkStep, Option.some.injEq, Prod.mk.injEq] at hstep
    obtain ⟨rfl, rfl⟩ := hstep
    refine ⟨?_, by simp⟩
    cases hd : (l.ends s).isDead with
    | true => simpa [Endpoint.pollTx, hd, Link.setEnd] using h
    | false => simpa [Endpoint.pollTx, hd] using h.pollTx hd (rfl : txLoop _ os _ _ = _)
  | pollRx s os answers =>
    simp only [linkStep, Option.some.injEq, Prod.mk.injEq] at hstep
    obtain ⟨rfl, rfl⟩ := hstep
    obtain ⟨hinv, hm⟩ := h.pollRx anyDomain s os answers
    exact ⟨hinv, by simp [hm]⟩

end LinkInv

theorem link_invariant {ring : Side → ℕ → WireFrame cfg} {staging : Side → List UInt8}
    {es : List LinkEvent} {l : Link cfg}
    (h : Exec linkStep FewPushes (linkInit ring staging) es l) :
    LinkInv l ∧ ∀ s, .rxPolled s true ∉ es := by
  refine h.invariant (fun es l => LinkInv l ∧ ∀ s, .rxPolled s true ∉ es)
    ⟨linkInit_inv ring staging, by simp⟩ ?_
  intro es l a l' ev ⟨hinv, hes⟩ hok hstep
  obtain ⟨hinv', hev⟩ := hinv.step hok hstep
  refine ⟨hinv', fun s hmem => ?_⟩
  rcases List.mem_append.mp hmem with hmem | hmem
  · exact hes s hmem
  · exact hev s (List.mem_singleton.mp hmem).symm

/-! ## What the sink is handed -/

/-- For the direction from `s` to its peer: on each connection the completed frames are the next
pushed events from the tail at which `s` bound it, and the peer's sink is handed those of them for
which an event was made. -/
structure Link.Delivers (l : Link cfg) (s : Side) : Prop where
  subsequence : (l.handedEvents s.peer).Sublist (l.pushed s)
  block : ∀ k, (l.receivedOn s.peer k).map Received.payload =
    ((l.pushed s).drop (l.start s k)).take (l.taken s k / cfg.frameSize)
  count : ∀ k, (l.receivedOn s.peer k).length = l.taken s k / cfg.frameSize
  handed : ∀ k, l.handedOn s.peer k =
    ((l.receivedOn s.peer k).filter Received.made).map Received.payload

theorem LinkInv.delivers {l : Link cfg} (h : LinkInv l) (s : Side) : l.Delivers s := by
  obtain ⟨frames, hd⟩ := h s
  refine ⟨?_, ?_, hd.receiver.count, ?_⟩
  · obtain ⟨pos, _, hsub, _⟩ := hd.receiver.subsequence
    rw [Link.handedEvents, hd.handed, List.map_map, ← hd.payloads]
    exact (List.filter_sublist.map _).trans (hsub.trans ((List.take_sublist _ _).map _))
  · intro k
    rw [← hd.payloads, ← List.map_drop, ← List.map_take]
    exact hd.receiver.block k
  · intro k
    rw [Link.handedOn, hd.handed, List.filter_map, List.map_map, List.filter_comm]
    rfl

/-- On a connection on which no event was missing, nothing is missing. -/
theorem Link.Delivers.gapless {l : Link cfg} {s : Side} (h : l.Delivers s) {k : ℕ}
    (hmade : ∀ r ∈ l.receivedOn s.peer k, r.made = true) :
    l.handedOn s.peer k =
      ((l.pushed s).drop (l.start s k)).take (l.taken s k / cfg.frameSize) := by
  rw [h.handed k, List.filter_eq_self.mpr hmade, h.block k]

/-- The frames that a `poll_rx` completes, no more than one for each `recv`, and what `make`
answered for them. -/
theorem linkStep_pollRx {l l' : Link cfg} {s : Side} {os : List RecvOutcome} {answers : List Bool}
    {e : LinkEvent} (hs : linkStep l (.pollRx s os answers) = some (l', e)) :
    ∃ rs, l'.received = Function.update l.received s (l.received s ++ rs) ∧
      rs.length ≤ os.length ∧
      rs.map Received.made = (List.range rs.length).map fun i => answers.getD i false := by
  cases hs
  refine ⟨_, rfl, ?_, ?_⟩
  · rw [List.length_map]
    exact pollRx_frames_length anyDomain _ os answers _
  · rw [List.map_map, List.length_map]
    exact pollRx_made _ os answers _

/-- A one-byte event, two of which fit into the ring. -/
def tinyConfig : Config 8 := ⟨[9, 0, 0, 0], sampleTypeId_length, 1, 2, rfl⟩

end ConduitRuntime.Net
