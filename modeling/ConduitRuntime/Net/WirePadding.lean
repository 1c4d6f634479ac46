import ConduitRuntime.Foundations.Simulation
import ConduitRuntime.Net.EndToEnd
import ConduitRuntime.Net.TxSteps

/-! `push` writes the type id and the payload of a slot, and `poll_tx` hands whole slots to `send`.
The bytes between the payload and the next multiple of 64 are whatever lay in `tx_ring_` before the
conduit was used. Two runs over different memory are compared here: every byte handed to `send` is
the same in both exactly when the two memories agree on those bytes. -/
namespace ConduitRuntime.Net
open Execution MaskedIndex Simulation
set_option autoImplicit false
set_option maxRecDepth 20000

variable {w : ℕ} {cfg : Config w}

/-! ## The padding of a frame -/

/-- The bytes after the payload. -/
def WireFrame.padding (frame : WireFrame cfg) : List UInt8 := frame.bytes.drop (4 + cfg.size)

namespace WireFrame

theorem ext_bytes {frame frame' : WireFrame cfg} (h : frame.bytes = frame'.bytes) :
    frame = frame' := by
  cases frame
  cases frame'
  cases h
  rfl

theorem padding_length (frame : WireFrame cfg) :
    frame.padding.length = cfg.frameSize - (4 + cfg.size) := by
  rw [padding, List.length_drop, frame.length_eq]

theorem padding_setTypeId (frame : WireFrame cfg) : frame.setTypeId.padding = frame.padding :=
  frame.setTypeId_drop

theorem padding_setPayload (frame : WireFrame cfg) (p : Payload cfg) :
    (frame.setPayload p).padding = frame.padding := by
  have hheader : (frame.bytes.take 4 ++ p.bytes).length = 4 + cfg.size := by
    have := cfg.header_le_frameSize
    rw [List.length_append, List.length_take, frame.length_eq, p.length_eq]
    omega
  exact List.drop_left' hheader

theorem padding_fill (frame : WireFrame cfg) (p : Payload cfg) :
    (frame.fill p).padding = frame.padding := by
  rw [← fill_eq, padding_setPayload, padding_setTypeId]

/-- The payload is all that two frames of one type with one padding can differ in. -/
theorem setPayload_eq {frame frame' : WireFrame cfg}
    (htype : typeIdOf frame.bytes = typeIdOf frame'.bytes)
    (hpadding : frame.padding = frame'.padding) (p : Payload cfg) :
    frame.setPayload p = frame'.setPayload p := by
  apply ext_bytes
  show typeIdOf frame.bytes ++ p.bytes ++ frame.padding =
    typeIdOf frame'.bytes ++ p.bytes ++ frame'.padding
  rw [htype, hpadding]

end WireFrame

/-! ## What is handed to `send` -/

/-- The steps of the two threads; a socket bound at any time, and `poll_rx`. Of what the producer
reads the last two write `is_dead_` alone, at most once, so each of them is one step. -/
inductive ConduitAction (cfg : Config w)
  | step (a : TxAction cfg)
  | bind (fd : ℕ)
  | pollRx (outcomes : List RecvOutcome) (answers : List Bool) (arrived : List UInt8)

def conduitStep (s : TxSystem cfg) : ConduitAction cfg → Option (TxSystem cfg)
  | .step a => (txStep s a).map Prod.fst
  | .bind fd =>
    match s.poller with
    | .idle => some { s with endpoint := s.endpoint.bindSocket fd }
    | _ => none
  | .pollRx outcomes answers arrived =>
    match s.poller with
    | .idle =>
      some { s with endpoint := (s.endpoint.pollRx anyDomain outcomes answers arrived).endpoint }
    | _ => none

/-- The `bytes_to_send` bytes at `data_ptr`: `send` may read them all, however many it takes. -/
def handedBy (s : TxSystem cfg) : ConduitAction cfg → Option (List UInt8)
  | .step (.send _) =>
    match s.poller with
    | .send tail _ =>
      some ((s.endpoint.txRing (cfg.slot tail)).bytes.drop s.endpoint.txInflight)
    | _ => none
  | _ => none

abbrev conduitRun (s : TxSystem cfg) (actions : List (ConduitAction cfg)) :
    TxSystem cfg × List (Option (List UInt8)) :=
  calls (attempt conduitStep handedBy) s actions

/-- What each call of `send` is handed, in order, in a run over the memory `txRing`. -/
def handed (txRing : ℕ → WireFrame cfg) (rxStaging : List UInt8)
    (actions : List (ConduitAction cfg)) : List (List UInt8) :=
  (conduitRun (txInit txRing rxStaging) actions).2.filterMap id

theorem handed_snoc (txRing : ℕ → WireFrame cfg) (rxStaging : List UInt8)
    (actions : List (ConduitAction cfg)) (a : ConduitAction cfg) :
    handed txRing rxStaging (actions ++ [a]) = handed txRing rxStaging actions ++
      (handedBy (conduitRun (txInit txRing rxStaging) actions).1 a).toList := by
  unfold handed
  rw [conduitRun, calls_append]
  exact filterMap_snoc id _ _

/-! ## Two memories that a run cannot tell apart -/

theorem Config.slot_of_lt {j : ℕ} (hj : j < cfg.capacity.toNat) :
    cfg.slot (BitVec.ofNat w j) = j := by
  rw [slot, mask, mask_ofNat cfg.capacity_pow (by omega), Nat.mod_eq_of_lt hj]

/-- After `n` pushes: the padding agrees everywhere, and whole frames agree where one was pushed. -/
structure SameSlots (n : ℕ) (ring ring' : ℕ → WireFrame cfg) : Prop where
  padding : ∀ j < cfg.capacity.toNat, (ring j).padding = (ring' j).padding
  written : ∀ j < cfg.capacity.toNat, j < n → ring j = ring' j
  capacity_pos : 0 < n → 0 < cfg.capacity.toNat

namespace SameSlots
variable {n : ℕ} {ring ring' : ℕ → WireFrame cfg}

theorem zero (h : ∀ j < cfg.capacity.toNat, (ring j).padding = (ring' j).padding) :
    SameSlots 0 ring ring' :=
  ⟨h, fun _ _ hj => absurd hj (Nat.not_lt_zero _), fun h => absurd h (Nat.lt_irrefl 0)⟩

/-- The frames below the head are the same in both memories. -/
theorem current (h : SameSlots n ring ring') {tail : BitVec w} (htail : tail.toNat < n) :
    ring (cfg.slot tail) = ring' (cfg.slot tail) := by
  have hpos := h.capacity_pos (by omega)
  have hslot : cfg.slot tail = tail.toNat % cfg.capacity.toNat :=
    mask_toNat cfg.capacity_pow hpos tail
  have hle := Nat.mod_le tail.toNat cfg.capacity.toNat
  rw [hslot]
  apply h.written
  · exact Nat.mod_lt _ hpos
  · omega

/-- A write to one slot that treats both memories alike. -/
theorem update (h : SameSlots n ring ring') (k : ℕ) {write : WireFrame cfg → WireFrame cfg}
    (hkeep : ∀ frame, (write frame).padding = frame.padding) :
    SameSlots n (Function.update ring k (write (ring k)))
      (Function.update ring' k (write (ring' k))) := by
  constructor
  · intro j hj
    by_cases hjk : j = k
    · subst hjk
      rw [Function.update_self, Function.update_self, hkeep, hkeep]
      exact h.padding j hj
    · rw [Function.update_of_ne hjk, Function.update_of_ne hjk]
      exact h.padding j hj
  · intro j hj hjn
    by_cases hjk : j = k
    · subst hjk
      rw [Function.update_self, Function.update_self, h.written j hj hjn]
    · rw [Function.update_of_ne hjk, Function.update_of_ne hjk]
      exact h.written j hj hjn
  · exact h.capacity_pos

/-- `tx_head_` moves over a slot that has become the same in both. -/
theorem succ (h : SameSlots n ring ring') (hpos : 0 < cfg.capacity.toNat)
    (hslot : ring (cfg.slot (BitVec.ofNat w n)) = ring' (cfg.slot (BitVec.ofNat w n))) :
    SameSlots (n + 1) ring ring' := by
  refine ⟨h.padding, ?_, fun _ => hpos⟩
  intro j hj hjn
  by_cases hold : j < n
  · exact h.written j hj hold
  · obtain rfl : j = n := by omega
    rwa [Config.slot_of_lt hj] at hslot

end SameSlots

/-- What a push in progress has made the same in both memories. -/
def ProducerPc.Agrees (n : ℕ) (ring ring' : ℕ → WireFrame cfg) : ProducerPc cfg → Prop
  | .loadTail _ head => head = BitVec.ofNat w n
  | .writeTypeId _ head => head = BitVec.ofNat w n ∧ 0 < cfg.capacity.toNat
  | .writePayload _ head => head = BitVec.ofNat w n ∧ 0 < cfg.capacity.toNat ∧
      typeIdOf (ring (cfg.slot head)).bytes = typeIdOf (ring' (cfg.slot head)).bytes
  | .storeHead _ head => head = BitVec.ofNat w n ∧ 0 < cfg.capacity.toNat ∧
      ring (cfg.slot head) = ring' (cfg.slot head)
  | _ => True

/-- The loop of `poll_tx` sends below a head that was stored. -/
def PollPc.Below (n : ℕ) : PollPc w → Prop
  | .send tail head => tail < head ∧ head.toNat ≤ n
  | _ => True

theorem PollPc.Below.mono {n m : ℕ} (hnm : n ≤ m) {pc : PollPc w} (h : pc.Below n) :
    pc.Below m := by
  cases pc with
  | send tail head => exact ⟨h.1, h.2.trans hnm⟩
  | _ => trivial

theorem pollAgain_below {n : ℕ} (tail : BitVec w) {head : BitVec w} (h : head.toNat ≤ n) :
    (pollAgain tail head).Below n := by
  unfold pollAgain
  split_ifs with hlt
  · exact ⟨hlt, h⟩
  · trivial

def Endpoint.withRing (e : Endpoint cfg) (ring : ℕ → WireFrame cfg) : Endpoint cfg :=
  { e with txRing := ring }

def TxSystem.withRing (s : TxSystem cfg) (ring : ℕ → WireFrame cfg) : TxSystem cfg :=
  { s with endpoint := s.endpoint.withRing ring }

/-- The system over its own memory, after `n` pushes, and over the memory `ring`. -/
structure Alike (n : ℕ) (s : TxSystem cfg) (ring : ℕ → WireFrame cfg) : Prop where
  head_eq : s.endpoint.txHead = BitVec.ofNat w n
  slots : SameSlots n s.endpoint.txRing ring
  producer : s.producer.Agrees n s.endpoint.txRing ring
  poller : s.poller.Below n

/-- Two systems that differ in memory only, and there only in what no `send` is handed. -/
def Related (s s' : TxSystem cfg) : Prop := ∃ n ring, s' = s.withRing ring ∧ Alike n s ring

/-- Both systems can take the step, and stay related, or neither can. -/
abbrev RelatedSteps (o o' : Option (TxSystem cfg × TxEvent cfg)) : Prop :=
  Option.Rel (fun x y => Related x.1 y.1) o o'

namespace Alike
variable {n : ℕ} {s : TxSystem cfg} {ring : ℕ → WireFrame cfg}

/-- A step of the poll thread, or one that only moves the producer on. -/
theorem moved (h : Alike n s ring) {t : TxSystem cfg}
    (hhead : t.endpoint.txHead = s.endpoint.txHead) (hring : t.endpoint.txRing = s.endpoint.txRing)
    (hproducer : t.producer.Agrees n s.endpoint.txRing ring) (hpoller : t.poller.Below n) :
    Related t (t.withRing ring) := by
  refine ⟨n, ring, rfl, ?_⟩
  constructor
  · rw [hhead, h.head_eq]
  · rw [hring]
    exact h.slots
  · rw [hring]
    exact hproducer
  · exact hpoller

theorem producerStep (h : Alike n s ring) :
    RelatedSteps (Net.producerStep s) (Net.producerStep (s.withRing ring)) := by
  obtain ⟨e, pc, poller⟩ := s
  cases pc with
  | idle => exact .none
  | loadDead ev =>
    cases ev with
    | none => exact .some (h.moved rfl rfl trivial h.poller)
    | some p =>
      apply both_ite Iff.rfl
      · intro _
        exact .some (h.moved rfl rfl trivial h.poller)
      · intro _
        exact .some (h.moved rfl rfl trivial h.poller)
  | loadHead p => exact .some (h.moved rfl rfl h.head_eq h.poller)
  | loadTail p head =>
    apply both_ite Iff.rfl
    · intro _
      exact .some (h.moved rfl rfl trivial h.poller)
    · intro hfull
      -- without slots every push is rejected here
      have hpos : 0 < cfg.capacity.toNat := by
        rw [BitVec.le_def] at hfull
        omega
      exact .some (h.moved rfl rfl ⟨h.producer, hpos⟩ h.poller)
  | writeTypeId p head =>
    obtain ⟨hhead, hpos⟩ := h.producer
    have hslots := h.slots.update (cfg.slot head) WireFrame.padding_setTypeId
    refine .some ⟨n, _, rfl, h.head_eq, hslots, ⟨hhead, hpos, ?_⟩, h.poller⟩
    simp only [Endpoint.writeSlot, Function.update_self]
    exact (WireFrame.setTypeId_take _).trans (WireFrame.setTypeId_take _).symm
  | writePayload p head =>
    -- type id and padding agree by now, so the payload makes the two frames the same
    obtain ⟨hhead, hpos, htype⟩ := h.producer
    have hslots := h.slots.update (cfg.slot head) (WireFrame.padding_setPayload · p)
    refine .some ⟨n, _, rfl, h.head_eq, hslots, ⟨hhead, hpos, ?_⟩, h.poller⟩
    simp only [Endpoint.writeSlot, Function.update_self]
    apply WireFrame.setPayload_eq htype
    apply h.slots.padding
    rw [hhead, Config.slot, Config.mask, mask_ofNat cfg.capacity_pow hpos]
    exact Nat.mod_lt _ hpos
  | storeHead p head =>
    obtain ⟨rfl, hpos, hslot⟩ := h.producer
    refine .some ⟨n + 1, ring, rfl, ?_, h.slots.succ hpos hslot, trivial,
      h.poller.mono (Nat.le_succ n)⟩
    exact (BitVec.ofNat_add n 1).symm

theorem pollerStep (h : Alike n s ring) :
    RelatedSteps (Net.pollerStep s) (Net.pollerStep (s.withRing ring)) := by
  obtain ⟨e, producer, pc⟩ := s
  cases pc with
  | idle => exact .none
  | send tail head => exact .none
  | loadDead =>
    refine .some (h.moved rfl rfl h.producer ?_)
    show PollPc.Below n (if e.isDead then .idle else .loadTail)
    split_ifs <;> trivial
  | loadHead tail =>
    have hhead : e.txHead.toNat ≤ n := by
      rw [show e.txHead = BitVec.ofNat w n from h.head_eq, BitVec.toNat_ofNat]
      exact Nat.mod_le _ _
    exact .some (h.moved rfl rfl h.producer (pollAgain_below tail hhead))
  | exchangeDead tail =>
    apply both_ite Iff.rfl
    · intro _
      exact .some (h.moved rfl rfl h.producer trivial)
    · intro _
      exact .some (h.moved rfl rfl h.producer trivial)
  | _ => exact .some (h.moved rfl rfl h.producer trivial)

theorem sendStep (h : Alike n s ring) (outcome : SendOutcome) :
    RelatedSteps (Net.sendStep s outcome) (Net.sendStep (s.withRing ring) outcome) := by
  obtain ⟨e, producer, pc⟩ := s
  cases pc with
  | send tail head =>
    obtain ⟨_, hhead⟩ := h.poller
    cases outcome with
    | sent m =>
      apply Option.Rel.some
      apply both_ite Iff.rfl
      · intro _
        exact h.moved rfl rfl h.producer (pollAgain_below (tail + 1) hhead)
      · intro _
        exact h.moved rfl rfl h.producer (pollAgain_below tail hhead)
    | wouldBlock => exact .some (h.moved rfl rfl h.producer trivial)
    | failed => exact .some (h.moved rfl rfl h.producer trivial)
  | _ => exact .none

theorem txStep (h : Alike n s ring) (a : TxAction cfg) :
    RelatedSteps (Net.txStep s a) (Net.txStep (s.withRing ring) a) := by
  obtain ⟨e, producer, poller⟩ := s
  cases a with
  | callPush ev =>
    cases producer with
    | idle => exact .some (h.moved rfl rfl trivial h.poller)
    | _ => exact .none
  | callPollTx =>
    cases poller with
    | idle => exact .some (h.moved rfl rfl h.producer trivial)
    | _ => exact .none
  | callBindSocket =>
    cases poller with
    | idle =>
      obtain ⟨_, isDead, _, _, _, _, _, _⟩ := e
      cases isDead with
      | true => exact .some (h.moved rfl rfl h.producer trivial)
      | false => exact .none
    | _ => exact .none
  | producer => exact h.producerStep
  | poller => exact h.pollerStep
  | send outcome => exact h.sendStep outcome

end Alike

/-! ## Receiving does not look at the ring -/

theorem markDead_withRing (e : Endpoint cfg) (ring : ℕ → WireFrame cfg) :
    (e.withRing ring).markDead = e.markDead.withRing ring := by
  obtain ⟨_, isDead, _, _, _, _, _, _⟩ := e
  cases isDead <;> rfl

/-- The second result is the first over the memory `ring`. -/
def RxResult.Over {P : Type} (ring : ℕ → WireFrame cfg) (r r' : RxResult cfg P) : Prop :=
  r'.endpoint = r.endpoint.withRing ring

section Over
variable {P E : Type} (d : DomainSink P E)

theorem rxLoop_over (os : List RecvOutcome) (e : Endpoint cfg) (ring : ℕ → WireFrame cfg) (p : P)
    (arrived : List UInt8) :
    RxResult.Over ring (rxLoop d os e p arrived) (rxLoop d os (e.withRing ring) p arrived) := by
  induction os generalizing e p arrived with
  | nil => rfl
  | cons o os ih =>
    cases o with
    | wouldBlock => rfl
    | closed => exact markDead_withRing e ring
    | failed => exact markDead_withRing e ring
    | got n =>
      have hgo : ∀ staging read p rest, RxResult.Over ring
          (rxLoop d os { e with rxStaging := staging, rxBytesRead := read } p rest)
          (rxLoop d os { e.withRing ring with rxStaging := staging, rxBytesRead := read } p rest) :=
        fun staging read p rest => ih { e with rxStaging := staging, rxBytesRead := read } p rest
      have hdead : ∀ staging read,
          { e.withRing ring with rxStaging := staging, rxBytesRead := read }.markDead =
            { e with rxStaging := staging, rxBytesRead := read }.markDead.withRing ring :=
        fun staging read =>
          markDead_withRing { e with rxStaging := staging, rxBytesRead := read } ring
      unfold rxLoop
      apply both_ite Iff.rfl
      · intro _
        rfl
      · intro _
        apply both_ite Iff.rfl
        · intro _
          apply both_ite Iff.rfl
          · intro _
            exact hdead _ _
          · intro _
            exact hgo _ _ _ _
        · intro _
          exact hgo _ _ _ _

theorem pollRx_over (e : Endpoint cfg) (ring : ℕ → WireFrame cfg) (os : List RecvOutcome) (p : P)
    (arrived : List UInt8) :
    RxResult.Over ring (e.pollRx d os p arrived) ((e.withRing ring).pollRx d os p arrived) := by
  apply both_ite Iff.rfl
  · intro _
    rfl
  · intro _
    exact rxLoop_over d os e ring p arrived

end Over

/-! ## Whole runs -/

theorem Related.conduitStep {s s' : TxSystem cfg} (h : Related s s') (a : ConduitAction cfg) :
    Option.Rel Related (conduitStep s a) (conduitStep s' a) := by
  obtain ⟨n, ring, rfl, h⟩ := h
  cases a with
  | step a =>
    have hsteps := h.txStep a
    unfold Net.conduitStep
    dsimp only
    generalize txStep s a = o, txStep (s.withRing ring) a = o' at hsteps ⊢
    cases hsteps with
    | none => exact .none
    | some hrel => exact .some hrel
  | bind fd =>
    obtain ⟨e, producer, poller⟩ := s
    cases poller with
    | idle => exact .some (h.moved rfl rfl h.producer trivial)
    | _ => exact .none
  | pollRx os answers arrived =>
    obtain ⟨e, producer, poller⟩ := s
    cases poller with
    | idle =>
      obtain ⟨_, hhead, _, hring, _⟩ := pollRx_txKept anyDomain e os answers arrived
      have hover : ((e.withRing ring).pollRx anyDomain os answers arrived).endpoint =
          (e.pollRx anyDomain os answers arrived).endpoint.withRing ring :=
        pollRx_over anyDomain e ring os answers arrived
      simp only [Net.conduitStep, TxSystem.withRing, hover]
      exact .some (h.moved hhead hring h.producer trivial)
    | _ => exact .none

theorem Related.handedBy {s s' : TxSystem cfg} (h : Related s s') (a : ConduitAction cfg) :
    handedBy s a = handedBy s' a := by
  obtain ⟨n, ring, rfl, h⟩ := h
  obtain ⟨e, producer, poller⟩ := s
  cases a with
  | step a =>
    cases a with
    | send outcome =>
      cases poller with
      | send tail head =>
        obtain ⟨hlt, hhead⟩ := h.poller
        have hbelow : tail.toNat < n := by
          rw [BitVec.lt_def] at hlt
          omega
        have hframe := h.slots.current hbelow
        exact congrArg (fun frame => some (frame.bytes.drop e.txInflight)) hframe
      | _ => rfl
    | _ => rfl
  | _ => rfl

theorem handed_eq {ring ring' : ℕ → WireFrame cfg}
    (h : ∀ j < cfg.capacity.toNat, (ring j).padding = (ring' j).padding) (rxStaging : List UInt8)
    (actions : List (ConduitAction cfg)) :
    handed ring rxStaging actions = handed ring' rxStaging actions := by
  have hbisim : Bisimulates (attempt (@conduitStep w cfg) handedBy)
      (attempt conduitStep handedBy) Related :=
    .attempt (fun _ _ a h => h.handedBy a) (fun _ _ a h => h.conduitStep a)
  have hinit : Related (txInit ring rxStaging) (txInit ring' rxStaging) :=
    ⟨0, ring', rfl, rfl, .zero h, trivial, trivial⟩
  exact congrArg (List.filterMap id) (hbisim.calls hinit actions).1

/-! ## Every slot gets its turn -/

/-- A whole call of `push` by a producer left alone. -/
def pushActions (p : Payload cfg) : List (ConduitAction cfg) :=
  .step (.callPush (some p)) :: List.replicate 6 (.step .producer)

/-- `poll_tx` up to its first `send`. -/
def pollActions : List (ConduitAction cfg) := .step .callPollTx :: List.replicate 3 (.step .poller)

/-- A `send` that takes the whole frame, and the store of `tx_tail_`. -/
def sendActions : List (ConduitAction cfg) :=
  [.step (.send (.sent cfg.frameSize)), .step .poller]

theorem push_run {e : Endpoint cfg} (hdead : e.isDead = false)
    (hroom : ¬ cfg.capacity ≤ e.txHead - e.txTail) (p : Payload cfg) (poller : PollPc w) :
    (conduitRun ⟨e, .idle, poller⟩ (pushActions p)).1 =
      ⟨{ e.writeSlot e.txHead (·.fill p) with txHead := e.txHead + 1 }, .idle, poller⟩ := by
  simp [conduitRun, calls, attempt, pushActions, List.replicate, conduitStep, txStep, producerStep,
    hdead, hroom, writeSlot_fill]

theorem poll_run {e : Endpoint cfg} (hdead : e.isDead = false) (hlt : e.txTail < e.txHead)
    (producer : ProducerPc cfg) :
    (conduitRun ⟨e, producer, .idle⟩ pollActions).1 = ⟨e, producer, .send e.txTail e.txHead⟩ := by
  simp [conduitRun, calls, attempt, pollActions, List.replicate, conduitStep, txStep, pollerStep,
    hdead, pollAgain, hlt]

theorem send_run {e : Endpoint cfg} (hinflight : e.txInflight = 0) {tail head : BitVec w}
    (hlast : ¬ tail + 1 < head) (producer : ProducerPc cfg) :
    (conduitRun ⟨e, producer, .send tail head⟩ sendActions).1 =
      ⟨{ e with txTail := tail + 1, txInflight := 0 }, producer, .idle⟩ := by
  have hpos := cfg.frameSize_pos
  have hwhole : max 1 (min cfg.frameSize (cfg.frameSize - 0)) = cfg.frameSize := by omega
  have hsend : conduitStep ⟨e, producer, .send tail head⟩ (.step (.send (.sent cfg.frameSize))) =
      some ⟨{ e with txInflight := 0 }, producer, .storeTail (tail + 1)⟩ := by
    simp only [conduitStep, txStep, sendStep, hinflight, hwhole, Nat.zero_add, if_true, pollAgain,
      if_neg hlast, Option.map_some]
  simp only [conduitRun, sendActions, calls, attempt, hsend, Option.getD_some]
  rfl

/-- Between calls, with `j` frames pushed and sent, and the slots from `j` on never used. -/
structure Ready (ring : ℕ → WireFrame cfg) (j : ℕ) (s : TxSystem cfg) : Prop where
  producer : s.producer = .idle
  poller : s.poller = .idle
  alive : s.endpoint.isDead = false
  head_eq : s.endpoint.txHead = BitVec.ofNat w j
  tail_eq : s.endpoint.txTail = BitVec.ofNat w j
  inflight : s.endpoint.txInflight = 0
  unused : ∀ i, j ≤ i → s.endpoint.txRing i = ring i

/-- In front of the `send` of the frame in slot `j`. -/
structure Sending (ring : ℕ → WireFrame cfg) (p : Payload cfg) (j : ℕ) (s : TxSystem cfg) :
    Prop where
  producer : s.producer = .idle
  poller : s.poller = .send (BitVec.ofNat w j) (BitVec.ofNat w (j + 1))
  alive : s.endpoint.isDead = false
  head_eq : s.endpoint.txHead = BitVec.ofNat w (j + 1)
  inflight : s.endpoint.txInflight = 0
  frame : s.endpoint.txRing j = (ring j).fill p
  unused : ∀ i, j < i → s.endpoint.txRing i = ring i

section Rounds
variable {ring : ℕ → WireFrame cfg} {j : ℕ} {s : TxSystem cfg}

theorem Ready.sending (h : Ready ring j s) (hj : j < cfg.capacity.toNat) (p : Payload cfg) :
    Sending ring p j (conduitRun s (pushActions p ++ pollActions)).1 := by
  obtain ⟨e, producer, poller⟩ := s
  obtain ⟨rfl, rfl, halive, hhead, htail, hinflight, hunused⟩ := h
  dsimp only at halive hhead htail hinflight hunused
  have hroom : ¬ cfg.capacity ≤ e.txHead - e.txTail := by
    rw [hhead, htail, BitVec.sub_self, BitVec.le_def, BitVec.toNat_zero]
    omega
  have hslot : cfg.slot e.txHead = j := by rw [hhead, Config.slot_of_lt hj]
  have hnext : e.txHead + 1 = BitVec.ofNat w (j + 1) := by
    rw [hhead]
    exact (BitVec.ofNat_add j 1).symm
  have hlt : e.txTail < e.txHead + 1 := by
    have hbound := cfg.capacity.isLt
    rw [hnext, htail, BitVec.lt_def, BitVec.toNat_ofNat, BitVec.toNat_ofNat,
      Nat.mod_eq_of_lt (by omega), Nat.mod_eq_of_lt (by omega)]
    exact Nat.lt_succ_self j
  let e' : Endpoint cfg := { e.writeSlot e.txHead (·.fill p) with txHead := e.txHead + 1 }
  have hrun : (conduitRun ⟨e, .idle, .idle⟩ (pushActions p ++ pollActions)).1 =
      ⟨e', .idle, .send e.txTail (e.txHead + 1)⟩ := by
    rw [conduitRun, calls_append]
    dsimp only
    rw [push_run halive hroom]
    exact poll_run (e := e') halive hlt .idle
  rw [hrun, htail, hnext]
  refine ⟨rfl, rfl, halive, hnext, hinflight, ?_, ?_⟩
  · simp only [e', Endpoint.writeSlot, hslot, Function.update_self, hunused j (Nat.le_refl j)]
  · intro i hi
    simp only [e', Endpoint.writeSlot, hslot]
    rw [Function.update_of_ne (by omega), hunused i (by omega)]

theorem Sending.ready {p : Payload cfg} (h : Sending ring p j s) :
    Ready ring (j + 1) (conduitRun s sendActions).1 := by
  obtain ⟨e, producer, poller⟩ := s
  obtain ⟨rfl, rfl, halive, hhead, hinflight, _, hunused⟩ := h
  have hnext : BitVec.ofNat w j + 1 = BitVec.ofNat w (j + 1) := (BitVec.ofNat_add j 1).symm
  have hlast : ¬ BitVec.ofNat w j + 1 < BitVec.ofNat w (j + 1) := by
    rw [hnext]
    exact BitVec.lt_irrefl _
  rw [send_run hinflight hlast]
  exact ⟨rfl, rfl, halive, hhead, hnext, rfl, hunused⟩

end Rounds

/-- Bind a socket, then push and send the payload `j` times. -/
def rounds (p : Payload cfg) : ℕ → List (ConduitAction cfg)
  | 0 => [.bind 1]
  | j + 1 => rounds p j ++ (pushActions p ++ pollActions) ++ sendActions

theorem rounds_ready (ring : ℕ → WireFrame cfg) (rxStaging : List UInt8) (p : Payload cfg) {j : ℕ}
    (hj : j ≤ cfg.capacity.toNat) :
    Ready ring j (conduitRun (txInit ring rxStaging) (rounds p j)).1 := by
  induction j with
  | zero => exact ⟨rfl, rfl, rfl, rfl, rfl, rfl, fun _ _ => rfl⟩
  | succ j ih =>
    have hsending := (ih (by omega)).sending (by omega) p
    rw [rounds, conduitRun, calls_append, calls_append]
    exact hsending.ready

/-- The schedule that hands the frame of slot `j` to `send`. -/
def reveal (p : Payload cfg) (j : ℕ) : List (ConduitAction cfg) :=
  rounds p j ++ (pushActions p ++ pollActions) ++ [.step (.send (.sent cfg.frameSize))]

theorem handed_reveal (ring : ℕ → WireFrame cfg) (rxStaging : List UInt8) (p : Payload cfg) {j : ℕ}
    (hj : j < cfg.capacity.toNat) :
    ∃ before, handed ring rxStaging (reveal p j) = before ++ [((ring j).fill p).bytes] := by
  have hsending := (rounds_ready ring rxStaging p (Nat.le_of_lt hj)).sending hj p
  have hrun : Sending ring p j (conduitRun (txInit ring rxStaging)
      (rounds p j ++ (pushActions p ++ pollActions))).1 := by
    rw [conduitRun, calls_append]
    exact hsending
  refine ⟨_, (handed_snoc _ _ _ _).trans (congrArg _ ?_)⟩
  simp only [handedBy, hrun.poller, hrun.inflight, Config.slot_of_lt hj, hrun.frame, List.drop_zero,
    Option.toList_some]

theorem padding_of_handed {ring ring' : ℕ → WireFrame cfg} {rxStaging : List UInt8}
    (h : ∀ actions, handed ring rxStaging actions = handed ring' rxStaging actions) {j : ℕ}
    (hj : j < cfg.capacity.toNat) : (ring j).padding = (ring' j).padding := by
  let p : Payload cfg := ⟨List.replicate cfg.size 0, List.length_replicate⟩
  obtain ⟨before, hlast⟩ := handed_reveal ring rxStaging p hj
  obtain ⟨before', hlast'⟩ := handed_reveal ring' rxStaging p hj
  have hsame : before ++ [((ring j).fill p).bytes] = before' ++ [((ring' j).fill p).bytes] := by
    rw [← hlast, ← hlast']
    exact h (reveal p j)
  have hframe : (ring j).fill p = (ring' j).fill p := by
    apply WireFrame.ext_bytes
    exact List.singleton_inj.mp (List.append_inj' hsame rfl).2
  calc (ring j).padding = ((ring j).fill p).padding := (WireFrame.padding_fill _ p).symm
    _ = ((ring' j).fill p).padding := by rw [hframe]
    _ = (ring' j).padding := WireFrame.padding_fill _ p

/-! ## When the wire carries event data only -/

/-- Memory filled with one byte. -/
def filledWith (cfg : Config w) (b : UInt8) : ℕ → WireFrame cfg :=
  fun _ => ⟨List.replicate cfg.frameSize b, List.length_replicate⟩

theorem frameSize_eq_of_filledWith {j : ℕ}
    (h : (filledWith cfg 0 j).padding = (filledWith cfg 1 j).padding) :
    cfg.frameSize = 4 + cfg.size := by
  have hle := cfg.header_le_frameSize
  simp only [filledWith, WireFrame.padding, List.drop_replicate] at h
  rcases List.replicate_inj.mp h with ⟨_, hzero | hbyte⟩
  · omega
  · exact absurd hbyte (by decide)

theorem frameSize_eq_iff (cfg : Config w) : cfg.frameSize = 4 + cfg.size ↔ 64 ∣ 4 + cfg.size := by
  unfold Config.frameSize
  omega

/-- A run cannot tell two memories apart exactly when they agree on the padding of every slot, so
that no run can tell any two apart exactly when there is no slot or no padding. -/
theorem handed_same_iff (cfg : Config w) (rxStaging : List UInt8) :
    (∀ ring ring' : ℕ → WireFrame cfg,
      (∀ actions, handed ring rxStaging actions = handed ring' rxStaging actions) ↔
        ∀ j < cfg.capacity.toNat, (ring j).padding = (ring' j).padding) ∧
    ((∀ (ring ring' : ℕ → WireFrame cfg) (actions : List (ConduitAction cfg)),
        handed ring rxStaging actions = handed ring' rxStaging actions) ↔
      cfg.capacity = 0 ∨ 64 ∣ 4 + cfg.size) := by
  refine ⟨?_, ?_, ?_⟩
  · intro ring ring'
    exact ⟨fun h _ hj => padding_of_handed h hj, fun h => handed_eq h rxStaging⟩
  · intro h
    by_cases hcap : cfg.capacity = 0
    · exact .inl hcap
    · have hpos : 0 < cfg.capacity.toNat := by
        rw [Nat.pos_iff_ne_zero]
        intro hzero
        exact hcap (BitVec.eq_of_toNat_eq hzero)
      have hpadding := padding_of_handed (h (filledWith cfg 0) (filledWith cfg 1)) hpos
      exact .inr ((frameSize_eq_iff cfg).mp (frameSize_eq_of_filledWith hpadding))
  · intro h ring ring' actions
    apply handed_eq
    intro j hj
    rcases h with hcap | hdvd
    · rw [hcap] at hj
      exact absurd hj (Nat.not_lt_zero j)
    · have hnone : ∀ frame : WireFrame cfg, frame.padding = [] := by
        intro frame
        rw [← List.length_eq_zero_iff, frame.padding_length, (frameSize_eq_iff cfg).mpr hdvd,
          Nat.sub_self]
      rw [hnone, hnone]

/-- One event of one byte, pushed and sent: 59 of the 64 bytes are whatever the memory held. -/
theorem padding_leaks :
    handed (filledWith tinyConfig 0) [] (rounds ⟨[7], rfl⟩ 1) =
        [[9, 0, 0, 0, 7] ++ List.replicate 59 0] ∧
      handed (filledWith tinyConfig 1) [] (rounds ⟨[7], rfl⟩ 1) =
        [[9, 0, 0, 0, 7] ++ List.replicate 59 1] ∧
      handed (filledWith tinyConfig 0) [] (rounds ⟨[7], rfl⟩ 1) ≠
        handed (filledWith tinyConfig 1) [] (rounds ⟨[7], rfl⟩ 1) := by
  have hzero : handed (filledWith tinyConfig 0) [] (rounds ⟨[7], rfl⟩ 1) =
      [[9, 0, 0, 0, 7] ++ List.replicate 59 0] := rfl
  have hone : handed (filledWith tinyConfig 1) [] (rounds ⟨[7], rfl⟩ 1) =
      [[9, 0, 0, 0, 7] ++ List.replicate 59 1] := rfl
  refine ⟨hzero, hone, ?_⟩
  rw [hzero, hone]
  decide

end ConduitRuntime.Net
