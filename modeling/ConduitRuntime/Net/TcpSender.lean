import ConduitRuntime.Foundations.Budget
import ConduitRuntime.Ring.RingSteps

/-! `tcp_sender_node`: a compute thread that calls `send_async`, an I/O thread inside `run`, and
calls of `stop` from anywhere, one access at a time. `send` blocks: its return is a step of the
kernel. `run` leaves its result aside, so the kernel may have taken any part of a message.
`is_running_` is a plain `bool` shared by the threads; its loads and stores are taken as indivisible
here. -/
namespace ConduitRuntime.Net
open Execution ConduitRuntime.Ring
set_option autoImplicit false

/-- Where the I/O thread is inside `run`; at `send` it waits for the call to return. -/
inductive SenderPc (A : Type)
  | outside
  | checkFd
  | setRunning
  | test
  | pop
  | send (ev : A)

structure TcpSender (A : Type) (cap : RingCapacity) where
  ring : RingThreads A cap
  socketFd : ℤ
  isRunning : Bool
  io : SenderPc A

/-- `io` is the next access of the I/O thread, `sendReturns` the return of its `send`: `taken` is
how many bytes of the message the kernel has taken, none of them on an error. -/
inductive SenderAction (A : Type)
  | sendAsync (ev : Option A)
  | compute
  | callRun
  | io
  | sendReturns (taken : ℕ)
  | stop

inductive SenderEvent (A : Type)
  | silent
  | sendReturned (ev : Option A) (accepted : Bool)
  | started
  | took (ev : Option A)
  | handed (ev : A) (bytes : List (BitVec 8))
  | ended
  | stopped

section Steps
variable {A : Type} {cap : RingCapacity}

/-- What the caller of `send_async`, or `run`, sees of a step of the ring. -/
def SenderEvent.ofRing : SpscEvent A → SenderEvent A
  | .silent => .silent
  | .pushReturned ev accepted => .sendReturned ev accepted
  | .popReturned ev => .took ev

/-- What `run` does next, after a step of its `pop`. -/
def afterPop : SpscEvent A → SenderPc A
  | .popReturned (some ev) => .send ev
  | .popReturned none => .test
  | _ => .pop

/-- One access of the I/O thread. -/
def ioStep (s : TcpSender A cap) : Option (TcpSender A cap × SenderEvent A) :=
  match s.io with
  | .outside => none
  | .checkFd =>
    if s.socketFd < 0 then some ({ s with io := .outside }, .ended)
    else some ({ s with io := .setRunning }, .silent)
  | .setRunning => some ({ s with isRunning := true, io := .test }, .started)
  | .test =>
    if s.isRunning then
      (ringStep s.ring .callPop).map fun r => ({ s with ring := r.1, io := .pop }, .ofRing r.2)
    else some ({ s with io := .outside }, .ended)
  | .pop =>
    (ringStep s.ring .consumer).map fun r =>
      ({ s with ring := r.1, io := afterPop r.2 }, .ofRing r.2)
  | .send _ => none

/-- `bytes ev` are the `size_bytes` bytes of `*ev`. -/
def senderStep (bytes : A → List (BitVec 8)) (s : TcpSender A cap) :
    SenderAction A → Option (TcpSender A cap × SenderEvent A)
  | .sendAsync ev =>
    (ringStep s.ring (.callPush ev)).map fun r => ({ s with ring := r.1 }, .ofRing r.2)
  | .compute =>
    (ringStep s.ring .producer).map fun r => ({ s with ring := r.1 }, .ofRing r.2)
  | .callRun =>
    match s.io with
    | .outside => some ({ s with io := .checkFd }, .silent)
    | _ => none
  | .io => ioStep s
  | .sendReturns taken =>
    match s.io with
    | .send ev => some ({ s with io := .test }, .handed ev ((bytes ev).take taken))
    | _ => none
  | .stop => some ({ s with isRunning := false }, .stopped)

def senderInit (A : Type) (cap : RingCapacity) (connectedSocket : ℤ) : TcpSender A cap where
  ring := ringInit A cap
  socketFd := connectedSocket
  isRunning := false
  io := .outside

/-- `send_async` is called with non-null events only. -/
def NonNullSend (_ : TcpSender A cap) : SenderAction A → Prop
  | .sendAsync none => False
  | _ => True

instance (s : TcpSender A cap) (a : SenderAction A) : Decidable (NonNullSend s a) :=
  match a with
  | .sendAsync none => isFalse id
  | .sendAsync (some _) => isTrue trivial
  | .compute => isTrue trivial
  | .callRun => isTrue trivial
  | .io => isTrue trivial
  | .sendReturns _ => isTrue trivial
  | .stop => isTrue trivial

/-- The events `send_async` answered `true` to, in order. -/
def acceptedSends : List (SenderEvent A) → List A
  | [] => []
  | .sendReturned ev true :: es => ev.toList ++ acceptedSends es
  | _ :: es => acceptedSends es

/-- The events given to `send`, in order. -/
def sentEvents : List (SenderEvent A) → List A
  | [] => []
  | .handed ev _ :: es => ev :: sentEvents es
  | _ :: es => sentEvents es

/-- What the kernel has taken. -/
def kernelBytes (es : List (SenderEvent A)) : List (BitVec 8) :=
  es.flatMap fun | .handed _ bytes => bytes | _ => []

/-- The event `run` has popped and not sent yet. -/
def SenderPc.inHand : SenderPc A → List A
  | .send ev => [ev]
  | _ => []

/-! ## The ring inside the node -/

/-- What a step of the node shows of the ring. -/
def SenderEvent.ring : SenderEvent A → List (SpscEvent A)
  | .sendReturned ev accepted => [.pushReturned ev accepted]
  | .took ev => [.popReturned ev]
  | _ => []

/-- A step of the ring without what its callers do not see. -/
def loud : SpscEvent A → List (SpscEvent A)
  | .silent => []
  | e => [e]

theorem ring_ofRing (e : SpscEvent A) : (SenderEvent.ofRing e).ring = loud e := by
  cases e <;> rfl

/-- Each step of the node is one step of its ring, or leaves the ring alone. -/
theorem senderStep_ring {bytes : A → List (BitVec 8)} {s u : TcpSender A cap} {a : SenderAction A}
    {e : SenderEvent A} (hok : NonNullSend s a) (hs : senderStep bytes s a = some (u, e)) :
    (u.ring = s.ring ∧ e.ring = []) ∨
      ∃ b f, NonNullPush s.ring.view b ∧ ringStep s.ring b = some (u.ring, f) ∧
        e.ring = loud f := by
  cases a with
  | sendAsync ev =>
    obtain ⟨⟨r, f⟩, hr, he⟩ := Option.map_eq_some_iff.mp hs
    cases he
    refine .inr ⟨.callPush ev, f, ?_, hr, ring_ofRing f⟩
    cases ev with
    | none => exact hok.elim
    | some ev => trivial
  | compute =>
    obtain ⟨⟨r, f⟩, hr, he⟩ := Option.map_eq_some_iff.mp hs
    cases he
    exact .inr ⟨.producer, f, trivial, hr, ring_ofRing f⟩
  | callRun =>
    simp only [senderStep] at hs
    split at hs
    · cases hs
      exact .inl ⟨rfl, rfl⟩
    · cases hs
  | stop =>
    cases hs
    exact .inl ⟨rfl, rfl⟩
  | sendReturns taken =>
    simp only [senderStep] at hs
    split at hs
    · cases hs
      exact .inl ⟨rfl, rfl⟩
    · cases hs
  | io =>
    simp only [senderStep, ioStep] at hs
    split at hs
    · cases hs
    · split_ifs at hs <;> cases hs <;> exact .inl ⟨rfl, rfl⟩
    · cases hs
      exact .inl ⟨rfl, rfl⟩
    · split_ifs at hs
      · obtain ⟨⟨r, f⟩, hr, he⟩ := Option.map_eq_some_iff.mp hs
        cases he
        exact .inr ⟨.callPop, f, trivial, hr, ring_ofRing f⟩
      · cases hs
        exact .inl ⟨rfl, rfl⟩
    · obtain ⟨⟨r, f⟩, hr, he⟩ := Option.map_eq_some_iff.mp hs
      cases he
      exact .inr ⟨.consumer, f, trivial, hr, ring_ofRing f⟩
    · cases hs

/-- Every run of the node contains a run of a conduit that shows the same pushes and pops. -/
theorem sender_ring {bytes : A → List (BitVec 8)} {fd : ℤ} {es : List (SenderEvent A)}
    {s : TcpSender A cap} (h : Exec (senderStep bytes) NonNullSend (senderInit A cap fd) es s) :
    ∃ fs, Exec spscStep NonNullPush (spscInit cap.size_pos fun _ => none) fs s.ring.view ∧
      fs.flatMap loud = es.flatMap SenderEvent.ring := by
  have hsim : ∃ fs t, Exec spscStep NonNullPush (spscInit cap.size_pos fun _ => none) fs t ∧
      s.ring.view = t ∧ fs.flatMap loud = es.flatMap SenderEvent.ring := by
    refine h.simulate SenderEvent.ring loud (fun s t => s.ring.view = t) ?_ rfl
    rintro s t a u e rfl hok hs
    rcases senderStep_ring hok hs with ⟨hring, he⟩ | ⟨b, f, hb, hstep, he⟩
    · exact ⟨[], s.ring.view, .nil, by rw [hring], he.symm⟩
    · refine ⟨[f], u.ring.view, .one hb (ringStep_view hstep), rfl, ?_⟩
      rw [he]
      simp
  obtain ⟨fs, t, hexec, rfl, hobs⟩ := hsim
  exact ⟨fs, hexec, hobs⟩

theorem accepted_loud (fs : List (SpscEvent A)) : accepted (fs.flatMap loud) = accepted fs := by
  induction fs with
  | nil => rfl
  | cons f fs ih =>
    rw [List.flatMap_cons, accepted_append, ih]
    rcases f with _ | ⟨ev, _ | _⟩ | ev <;> simp [loud, accepted]

theorem popped_loud (fs : List (SpscEvent A)) : popped (fs.flatMap loud) = popped fs := by
  induction fs with
  | nil => rfl
  | cons f fs ih =>
    rw [List.flatMap_cons, popped_append, ih]
    rcases f with _ | ⟨ev, b⟩ | ev <;> simp [loud, popped]

theorem accepted_ring (es : List (SenderEvent A)) :
    accepted (es.flatMap SenderEvent.ring) = acceptedSends es := by
  induction es with
  | nil => rfl
  | cons e es ih =>
    rw [List.flatMap_cons, accepted_append, ih]
    rcases e with _ | ⟨ev, _ | _⟩ | _ | ev | ⟨ev, bs⟩ | _ | _ <;>
      simp [SenderEvent.ring, accepted, acceptedSends]

/-- The events `run` has popped. -/
def tookEvents (es : List (SenderEvent A)) : List A := popped (es.flatMap SenderEvent.ring)

theorem tookEvents_snoc (es : List (SenderEvent A)) (e : SenderEvent A) :
    tookEvents (es ++ [e]) = tookEvents es ++ popped e.ring := by
  simp [tookEvents, popped_append]

theorem sentEvents_append (es fs : List (SenderEvent A)) :
    sentEvents (es ++ fs) = sentEvents es ++ sentEvents fs := by
  induction es with
  | nil => rfl
  | cons e es ih => cases e <;> simp [sentEvents, ih]

theorem sentEvents_ofRing (f : SpscEvent A) : sentEvents [SenderEvent.ofRing f] = [] := by
  cases f <;> rfl

/-! ## The I/O thread -/

/-- What a step of `run` does to the event it has in hand. -/
theorem ioStep_hand {s u : TcpSender A cap} {e : SenderEvent A} (hs : ioStep s = some (u, e)) :
    s.io.inHand ++ popped e.ring = sentEvents [e] ++ u.io.inHand := by
  unfold ioStep at hs
  split at hs
  · cases hs
  · rename_i hio
    split_ifs at hs <;> cases hs <;>
      simp [hio, SenderPc.inHand, SenderEvent.ring, popped, sentEvents]
  · rename_i hio
    cases hs
    simp [hio, SenderPc.inHand, SenderEvent.ring, popped, sentEvents]
  · rename_i hio
    split_ifs at hs
    · obtain ⟨⟨r, f⟩, hr, he⟩ := Option.map_eq_some_iff.mp hs
      cases he
      have hf : f = .silent := by
        simp only [ringStep] at hr
        split at hr <;> cases hr
        rfl
      subst hf
      simp [hio, SenderPc.inHand, SenderEvent.ofRing, SenderEvent.ring, popped, sentEvents]
    · cases hs
      simp [hio, SenderPc.inHand, SenderEvent.ring, popped, sentEvents]
  · rename_i hio
    obtain ⟨⟨r, f⟩, hr, he⟩ := Option.map_eq_some_iff.mp hs
    cases he
    rcases f with _ | ⟨ev, b⟩ | (_ | ev) <;>
      simp [hio, SenderPc.inHand, SenderEvent.ofRing, SenderEvent.ring, popped, sentEvents,
        afterPop]
  · cases hs

/-- The producer's steps return no pointer from `pop`. -/
theorem producer_loud {r u : RingThreads A cap} {f : SpscEvent A}
    (hr : ringProducerStep r = some (u, f)) : popped (loud f) = [] := by
  unfold ringProducerStep at hr
  split at hr
  · cases hr
  · cases hr
    rfl
  · split_ifs at hr <;> cases hr <;> rfl
  · cases hr
    rfl
  · cases hr
    rfl

theorem senderStep_hand {bytes : A → List (BitVec 8)} {s u : TcpSender A cap} {a : SenderAction A}
    {e : SenderEvent A} (hs : senderStep bytes s a = some (u, e)) :
    s.io.inHand ++ popped e.ring = sentEvents [e] ++ u.io.inHand := by
  cases a with
  | sendAsync ev =>
    obtain ⟨⟨r, f⟩, hr, he⟩ := Option.map_eq_some_iff.mp hs
    cases he
    have hf : f = .silent := by
      simp only [ringStep] at hr
      split at hr <;> cases hr
      rfl
    subst hf
    simp [SenderEvent.ofRing, SenderEvent.ring, popped, sentEvents]
  | compute =>
    obtain ⟨⟨r, f⟩, hr, he⟩ := Option.map_eq_some_iff.mp hs
    cases he
    rw [ring_ofRing, producer_loud hr, sentEvents_ofRing, List.append_nil, List.nil_append]
  | callRun =>
    simp only [senderStep] at hs
    split at hs
    · rename_i hio
      cases hs
      simp [hio, SenderPc.inHand, SenderEvent.ring, popped, sentEvents]
    · cases hs
  | stop =>
    cases hs
    simp [SenderEvent.ring, popped, sentEvents]
  | io => exact ioStep_hand hs
  | sendReturns taken =>
    simp only [senderStep] at hs
    split at hs
    · rename_i ev hio
      cases hs
      simp [hio, SenderPc.inHand, SenderEvent.ring, popped, sentEvents]
    · cases hs

/-- What has been popped has been handed to `send`, but for the event in hand. -/
theorem sender_taken {bytes : A → List (BitVec 8)} {fd : ℤ} {es : List (SenderEvent A)}
    {s : TcpSender A cap} (h : Exec (senderStep bytes) NonNullSend (senderInit A cap fd) es s) :
    tookEvents es = sentEvents es ++ s.io.inHand := by
  refine h.invariant (fun es s => tookEvents es = sentEvents es ++ s.io.inHand) rfl ?_
  intro es s a u e hi _ hs
  rw [tookEvents_snoc, hi, sentEvents_append, List.append_assoc, senderStep_hand hs,
    List.append_assoc]

/-- Without a socket `run` never gets to its loop. -/
theorem no_socket {bytes : A → List (BitVec 8)} {fd : ℤ} (hfd : fd < 0)
    {es : List (SenderEvent A)} {s : TcpSender A cap}
    (h : Exec (senderStep bytes) NonNullSend (senderInit A cap fd) es s) :
    sentEvents es = [] ∧ s.socketFd < 0 ∧ (s.io = .outside ∨ s.io = .checkFd) := by
  refine h.invariant (fun es s => sentEvents es = [] ∧ s.socketFd < 0 ∧
    (s.io = .outside ∨ s.io = .checkFd)) ⟨rfl, hfd, .inl rfl⟩ ?_
  rintro es s a u e ⟨hsent, hneg, hio⟩ _ hs
  rw [sentEvents_append, hsent, List.nil_append]
  cases a with
  | sendAsync ev =>
    obtain ⟨⟨r, f⟩, -, he⟩ := Option.map_eq_some_iff.mp hs
    cases he
    exact ⟨sentEvents_ofRing f, hneg, hio⟩
  | compute =>
    obtain ⟨⟨r, f⟩, -, he⟩ := Option.map_eq_some_iff.mp hs
    cases he
    exact ⟨sentEvents_ofRing f, hneg, hio⟩
  | callRun =>
    simp only [senderStep] at hs
    split at hs
    · cases hs
      exact ⟨rfl, hneg, .inr rfl⟩
    · cases hs
  | stop =>
    cases hs
    exact ⟨rfl, hneg, hio⟩
  | sendReturns taken => rcases hio with hio | hio <;> simp [senderStep, hio] at hs
  | io =>
    rcases hio with hio | hio
    · simp [senderStep, ioStep, hio] at hs
    · simp only [senderStep, ioStep, hio, hneg, if_true] at hs
      cases hs
      exact ⟨rfl, hneg, .inl rfl⟩

/-- Only `send` hands an event over, or the beginning of it. -/
theorem handed_bytes {bytes : A → List (BitVec 8)} {s u : TcpSender A cap} {a : SenderAction A}
    {ev : A} {bs : List (BitVec 8)} (hs : senderStep bytes s a = some (u, .handed ev bs)) :
    ∃ taken, bs = (bytes ev).take taken := by
  have hring : ∀ f : SpscEvent A, SenderEvent.ofRing f ≠ .handed ev bs := by
    intro f hf
    cases f <;> cases hf
  cases a with
  | sendAsync p =>
    obtain ⟨⟨r, f⟩, -, he⟩ := Option.map_eq_some_iff.mp hs
    exact absurd (Prod.mk.inj he).2 (hring f)
  | compute =>
    obtain ⟨⟨r, f⟩, -, he⟩ := Option.map_eq_some_iff.mp hs
    exact absurd (Prod.mk.inj he).2 (hring f)
  | callRun =>
    simp only [senderStep] at hs
    split at hs <;> cases hs
  | stop => cases hs
  | sendReturns taken =>
    simp only [senderStep] at hs
    split at hs <;> cases hs
    exact ⟨taken, rfl⟩
  | io =>
    simp only [senderStep, ioStep] at hs
    split at hs
    · cases hs
    · split_ifs at hs <;> cases hs
    · cases hs
    · split_ifs at hs
      · obtain ⟨⟨r, f⟩, -, he⟩ := Option.map_eq_some_iff.mp hs
        exact absurd (Prod.mk.inj he).2 (hring f)
      · cases hs
    · obtain ⟨⟨r, f⟩, -, he⟩ := Option.map_eq_some_iff.mp hs
      exact absurd (Prod.mk.inj he).2 (hring f)
    · cases hs

/-- The kernel's bytes are the beginnings of the handed events, one after the other. -/
def Pieces (bytes : A → List (BitVec 8)) (es : List (SenderEvent A)) : Prop :=
  ∃ takes : List ℕ, takes.length = (sentEvents es).length ∧ kernelBytes es =
    (List.zipWith (fun ev taken => (bytes ev).take taken) (sentEvents es) takes).flatten

theorem Pieces.snoc {bytes : A → List (BitVec 8)} {s u : TcpSender A cap} {a : SenderAction A}
    {es : List (SenderEvent A)} {e : SenderEvent A} (h : Pieces bytes es)
    (hs : senderStep bytes s a = some (u, e)) : Pieces bytes (es ++ [e]) := by
  obtain ⟨takes, hlen, hbytes⟩ := h
  have hkernel : kernelBytes (es ++ [e]) = kernelBytes es ++ kernelBytes [e] := by
    simp [kernelBytes]
  rw [Pieces, sentEvents_append, hkernel, hbytes]
  cases e with
  | handed ev bs =>
    obtain ⟨taken, rfl⟩ := handed_bytes hs
    refine ⟨takes ++ [taken], by simp [sentEvents, hlen], ?_⟩
    rw [List.zipWith_append hlen.symm]
    simp [sentEvents, kernelBytes]
  | _ => exact ⟨takes, by simp [sentEvents, hlen], by simp [sentEvents, kernelBytes]⟩

/-- The node as a channel. Over every interleaving of `send_async`, `run` and `stop`: the events
`send_async` accepted are, in order and each once, those handed to `send`, the one in `run`'s
hand, and those in the ring; what the kernel took is made of their beginnings in that order; and
without a socket none is ever handed over. -/
theorem sender_in_order (bytes : A → List (BitVec 8)) (fd : ℤ) (es : List (SenderEvent A))
    (s : TcpSender A cap) (h : Exec (senderStep bytes) NonNullSend (senderInit A cap fd) es s) :
    (acceptedSends es).map some =
        (sentEvents es ++ s.io.inHand).map some ++ s.ring.buffer.toConduit.contents ∧
      Pieces bytes es ∧ (fd < 0 → sentEvents es = []) := by
  refine ⟨?_, ?_, fun hfd => (no_socket hfd h).1⟩
  · obtain ⟨fs, hexec, hobs⟩ := sender_ring h
    have hflow := (spsc_invariant cap.size_pos hexec).flow
    rw [← accepted_loud, ← popped_loud, hobs, accepted_ring] at hflow
    rw [hflow, ← sender_taken h]
    rfl
  · exact h.invariant (fun es _ => Pieces bytes es) ⟨[], rfl, rfl⟩
      fun _ _ _ _ _ hi _ hs => hi.snoc hs

/-- Two events sent through a ring of four slots; the kernel takes one byte of the second. -/
theorem sender_in_order_two :
    ∃ (es : List (SenderEvent (BitVec 8)))
      (s : TcpSender (BitVec 8) ⟨4#32, by decide, by decide⟩),
      Exec (senderStep fun b => [b, b]) NonNullSend (senderInit _ _ 3) es s ∧
      acceptedSends es = [7#8, 8#8] ∧ kernelBytes es = [7#8, 7#8, 8#8] ∧
      Pieces (fun b => [b, b]) es := by
  have h := exec_of_run (show run (senderStep fun b => [b, b]) NonNullSend
    (senderInit (BitVec 8) ⟨4#32, by decide, by decide⟩ 3)
    [.callRun, .io, .io, .sendAsync (some 7#8), .compute, .io, .compute, .io, .compute, .compute,
      .io, .io, .io, .sendAsync (some 8#8), .sendReturns 2, .compute, .compute, .compute, .compute,
      .io, .io, .io, .io, .io, .sendReturns 1] = some (_, _) from rfl)
  exact ⟨_, _, h, rfl, rfl, (sender_in_order _ _ _ _ h).2.1⟩

/-! ## Stopping -/

/-- The steps of `run`, the return of `send` among them. -/
def SenderAction.isIo : SenderAction A → Bool
  | .io => true
  | .sendReturns _ => true
  | _ => false

def SenderAction.isRun : SenderAction A → Bool
  | .callRun => true
  | _ => false

/-- How many steps the I/O thread is from the end of `run` once `is_running_` is `false`. -/
def leaving (s : TcpSender A cap) : ℕ :=
  match s.io with
  | .outside => 0
  | .test => 1
  | .send _ => 2
  | .pop =>
    match s.ring.consumer with
    | .storeRead _ _ => 3
    | .readSlot _ => 4
    | .loadWrite _ => 5
    | .loadRead => 6
    | .idle => 6
  | .checkFd => 0
  | .setRunning => 0

/-- How many events the I/O thread may still hand over. -/
def pending : SenderPc A → ℕ
  | .pop => 1
  | .send _ => 1
  | _ => 0

/-- `stop` has been called, and no `run` is about to set the flag again. -/
def Stopped (s : TcpSender A cap) : Prop :=
  s.isRunning = false ∧ s.io ≠ .checkFd ∧ s.io ≠ .setRunning

theorem producer_consumer {r u : RingThreads A cap} {f : SpscEvent A}
    (hr : ringProducerStep r = some (u, f)) : u.consumer = r.consumer := by
  unfold ringProducerStep at hr
  split at hr
  · cases hr
  · cases hr
    rfl
  · split_ifs at hr <;> cases hr <;> rfl
  · cases hr
    rfl
  · cases hr
    rfl

/-- Each access of the compute thread leaves the I/O thread where it is. -/
theorem leaving_congr {s u : TcpSender A cap} (hio : u.io = s.io)
    (hconsumer : u.ring.consumer = s.ring.consumer) : leaving u = leaving s := by
  unfold leaving
  rw [hio, hconsumer]

/-- One step of `pop` brings its end nearer. -/
theorem pop_leaving {s u : TcpSender A cap} {r : RingThreads A cap} {f : SpscEvent A}
    (hio : s.io = .pop) (hr : ringConsumerStep s.ring = some (r, f))
    (hu : u.io = afterPop f) (huring : u.ring = r) : leaving u + 1 ≤ leaving s := by
  unfold ringConsumerStep at hr
  split at hr
  · cases hr
  · rename_i hk
    cases hr
    simp [leaving, hio, hk, hu, huring, afterPop]
  · rename_i i hk
    split_ifs at hr <;> cases hr <;> simp [leaving, hio, hk, hu, huring, afterPop]
  · rename_i i hk
    cases hr
    simp [leaving, hio, hk, hu, huring, afterPop]
  · rename_i i item hk
    cases hr
    cases item <;> simp [leaving, hio, hk, hu, afterPop]

theorem stopped_step {bytes : A → List (BitVec 8)} {s u : TcpSender A cap} {a : SenderAction A}
    {e : SenderEvent A} (h : Stopped s) (ha : a.isRun = false)
    (hs : senderStep bytes s a = some (u, e)) :
    Stopped u ∧ leaving u + a.isIo.toNat ≤ leaving s ∧
      pending u.io + (sentEvents [e]).length ≤ pending s.io := by
  cases a with
  | sendAsync ev =>
    obtain ⟨⟨r, f⟩, hr, he⟩ := Option.map_eq_some_iff.mp hs
    cases he
    have hconsumer : r.consumer = s.ring.consumer := by
      simp only [ringStep] at hr
      split at hr <;> cases hr
      rfl
    have hleave : leaving { s with ring := r } = leaving s := leaving_congr rfl hconsumer
    exact ⟨h, hleave.le, by simp [sentEvents_ofRing]⟩
  | compute =>
    obtain ⟨⟨r, f⟩, hr, he⟩ := Option.map_eq_some_iff.mp hs
    cases he
    have hleave : leaving { s with ring := r } = leaving s :=
      leaving_congr rfl (producer_consumer hr)
    exact ⟨h, hleave.le, by simp [sentEvents_ofRing]⟩
  | callRun => cases ha
  | stop =>
    cases hs
    have hleave : leaving { s with isRunning := false } = leaving s := leaving_congr rfl rfl
    exact ⟨⟨rfl, h.2⟩, hleave.le, by simp [sentEvents]⟩
  | sendReturns taken =>
    obtain ⟨hrun, hfd, hset⟩ := h
    simp only [senderStep] at hs
    split at hs
    · rename_i ev hio
      cases hs
      exact ⟨⟨hrun, by simp, by simp⟩, by simp [leaving, hio, SenderAction.isIo],
        by simp [pending, hio, sentEvents]⟩
    · cases hs
  | io =>
    obtain ⟨hrun, hfd, hset⟩ := h
    simp only [senderStep, ioStep] at hs
    split at hs
    · cases hs
    · rename_i hio
      exact absurd hio hfd
    · rename_i hio
      exact absurd hio hset
    · rename_i hio
      simp only [hrun, Bool.false_eq_true, if_false] at hs
      cases hs
      exact ⟨⟨rfl, by simp, by simp⟩, by simp [leaving, hio, SenderAction.isIo],
        by simp [pending, sentEvents]⟩
    · rename_i hio
      obtain ⟨⟨r, f⟩, hr, he⟩ := Option.map_eq_some_iff.mp hs
      cases he
      refine ⟨⟨hrun, ?_, ?_⟩, pop_leaving hio hr rfl rfl, ?_⟩
      · rcases f with _ | ⟨ev, b⟩ | (_ | ev) <;> simp [afterPop]
      · rcases f with _ | ⟨ev, b⟩ | (_ | ev) <;> simp [afterPop]
      · rw [sentEvents_ofRing, hio]
        rcases f with _ | ⟨ev, b⟩ | (_ | ev) <;> simp [afterPop, pending]
    · cases hs

def SenderEvent.handed? : SenderEvent A → Option A
  | .handed ev _ => some ev
  | _ => none

theorem sentEvents_eq_filterMap (es : List (SenderEvent A)) :
    sentEvents es = es.filterMap SenderEvent.handed? := by
  induction es with
  | nil => rfl
  | cons e es ih =>
    rw [List.filterMap_cons, ← ih]
    cases e <;> rfl

theorem stopped_run {bytes : A → List (BitVec 8)} {s u : TcpSender A cap} (h : Stopped s)
    {as : List (SenderAction A)} (has : ∀ a ∈ as, a.isRun = false) {es : List (SenderEvent A)}
    (hrun : run (senderStep bytes) NonNullSend s as = some (es, u)) :
    Stopped u ∧ as.countP SenderAction.isIo + leaving u ≤ leaving s ∧
      (sentEvents es).length ≤ pending s.io := by
  have hstep : ∀ (s : TcpSender A cap) a t e, Stopped s → a.isRun = false →
      senderStep bytes s a = some (t, e) → Stopped t ∧ a.isIo.toNat + leaving t ≤ leaving s ∧
        e.handed?.toList.length + pending t.io ≤ pending s.io := by
    intro s a t e h ha hs
    obtain ⟨hstop, hleave, hpend⟩ := stopped_step h ha hs
    have hone : (sentEvents [e]).length = e.handed?.toList.length := by
      cases e <;> rfl
    exact ⟨hstop, by omega, by omega⟩
  obtain ⟨hstop, hcount, hsent⟩ := run_within_budget Stopped SenderAction.isIo leaving
    SenderEvent.handed? (fun s => pending s.io) hstep h has hrun
  rw [sentEvents_eq_filterMap]
  exact ⟨hstop, hcount, by omega⟩

/-- The I/O thread that waits for `pop` is inside it. -/
def InPop (s : TcpSender A cap) : Prop := s.io = .pop → s.ring.consumer ≠ .idle

theorem inPop_consumer {r u : RingThreads A cap} {f : SpscEvent A}
    (hr : ringConsumerStep r = some (u, f)) (hpop : afterPop f = .pop) : u.consumer ≠ .idle := by
  unfold ringConsumerStep at hr
  split at hr
  · cases hr
  · cases hr
    simp
  · split_ifs at hr
    · cases hr
      cases hpop
    · cases hr
      simp
  · cases hr
    simp
  · rename_i item _
    cases hr
    cases item <;> cases hpop

theorem inPop_step {bytes : A → List (BitVec 8)} {s u : TcpSender A cap} {a : SenderAction A}
    {e : SenderEvent A} (h : InPop s) (hs : senderStep bytes s a = some (u, e)) : InPop u := by
  cases a with
  | sendAsync ev =>
    obtain ⟨⟨r, f⟩, hr, he⟩ := Option.map_eq_some_iff.mp hs
    cases he
    simp only [ringStep] at hr
    split at hr <;> cases hr
    exact h
  | compute =>
    obtain ⟨⟨r, f⟩, hr, he⟩ := Option.map_eq_some_iff.mp hs
    cases he
    intro hio
    rw [show r.consumer = s.ring.consumer from producer_consumer hr]
    exact h hio
  | callRun =>
    simp only [senderStep] at hs
    split at hs <;> cases hs
    intro hio
    cases hio
  | stop =>
    cases hs
    exact h
  | sendReturns taken =>
    simp only [senderStep] at hs
    split at hs <;> cases hs
    intro hio
    cases hio
  | io =>
    simp only [senderStep, ioStep] at hs
    split at hs
    · cases hs
    · split_ifs at hs <;> cases hs <;> (intro hio; cases hio)
    · cases hs
      intro hio
      cases hio
    · split_ifs at hs
      · obtain ⟨⟨r, f⟩, hr, he⟩ := Option.map_eq_some_iff.mp hs
        cases he
        simp only [ringStep] at hr
        split at hr <;> cases hr
        intro _
        simp
      · cases hs
        intro hio
        cases hio
    · obtain ⟨⟨r, f⟩, hr, he⟩ := Option.map_eq_some_iff.mp hs
      cases he
      exact inPop_consumer hr
    · cases hs

/-- After `stop` the I/O thread can go on until it has left `run`, unless it waits for `send`. -/
theorem io_isSome (bytes : A → List (BitVec 8)) {s : TcpSender A cap} (h : Stopped s)
    (hpop : InPop s) (hin : s.io ≠ .outside) :
    0 < leaving s ∧ ((senderStep bytes s .io).isSome ∨ ∃ ev, s.io = .send ev) := by
  obtain ⟨hrun, hfd, hset⟩ := h
  cases hio : s.io with
  | outside => exact absurd hio hin
  | checkFd => exact absurd hio hfd
  | setRunning => exact absurd hio hset
  | test => simp [leaving, senderStep, ioStep, hio, hrun]
  | send ev => simp [leaving, hio]
  | pop =>
    have hconsumer := hpop hio
    cases hk : s.ring.consumer with
    | idle => exact absurd hk hconsumer
    | loadRead => simp [leaving, senderStep, ioStep, hio, hk, ringStep, ringConsumerStep]
    | loadWrite i =>
      by_cases hi : i = s.ring.buffer.writeIdx <;>
        simp [leaving, senderStep, ioStep, hio, hk, ringStep, ringConsumerStep, hi]
    | readSlot i => simp [leaving, senderStep, ioStep, hio, hk, ringStep, ringConsumerStep]
    | storeRead i item => simp [leaving, senderStep, ioStep, hio, hk, ringStep, ringConsumerStep]

/-- Once `stop` has been called and until `run` is called again, whatever the other threads do: the
I/O thread leaves `run` within six steps, the return of `send` among them, and hands at most one
more event over; on the way it can make its next access, unless it is inside `send` and waits for
that to return. A `stop` that comes before `run` has set the flag is not of this kind: `run`
overwrites it. -/
theorem sender_stops (bytes : A → List (BitVec 8)) (fd : ℤ) (es₀ : List (SenderEvent A))
    (s : TcpSender A cap) (h₀ : Exec (senderStep bytes) NonNullSend (senderInit A cap fd) es₀ s)
    (h : Stopped s) (as : List (SenderAction A)) (has : ∀ a ∈ as, a.isRun = false)
    (es : List (SenderEvent A)) (u : TcpSender A cap)
    (hrun : run (senderStep bytes) NonNullSend s as = some (es, u)) :
    as.countP SenderAction.isIo ≤ 6 ∧ (sentEvents es).length ≤ 1 ∧
      (u.io ≠ .outside → as.countP SenderAction.isIo < 6 ∧
        ((senderStep bytes u .io).isSome ∨
          ∃ ev, u.io = .send ev ∧ senderStep bytes u .io = none ∧
            ∀ taken, (senderStep bytes u (.sendReturns taken)).isSome)) := by
  obtain ⟨hstop, hcount, hsent⟩ := stopped_run h has hrun
  have hleave : leaving s ≤ 6 := by
    unfold leaving
    split <;> first | omega | (split <;> omega)
  have hpend : pending s.io ≤ 1 := by
    unfold pending
    split <;> omega
  have hpop : InPop u := by
    refine (h₀.trans (exec_of_run hrun)).invariant (fun _ s => InPop s) ?_ ?_
    · intro hio
      cases hio
    · intro _ s a t e hi _ hs
      exact inPop_step hi hs
  refine ⟨by omega, by omega, fun hin => ?_⟩
  obtain ⟨hpos, hnext⟩ := io_isSome bytes hstop hpop hin
  refine ⟨by omega, hnext.imp_right ?_⟩
  rintro ⟨ev, hio⟩
  exact ⟨ev, hio, by simp [senderStep, ioStep, hio], fun taken => by simp [senderStep, hio]⟩

theorem four_ne_zero : 4#32 ≠ 0 := by decide

theorem four_pow : 4#32 &&& (4#32 - 1) = 0 := by decide

def fourSlotRing : RingCapacity := ⟨4#32, four_ne_zero, four_pow⟩

def senderStart : List (SenderAction (BitVec 8)) :=
  [.callRun, .io, .io, .sendAsync (some 7#8), .compute, .compute, .compute, .compute, .io, .io, .io,
    .stop]

/-- `stop` has come while `pop` is about to take the last event. -/
def senderStopped : TcpSender (BitVec 8) fourSlotRing :=
  ((run (senderStep fun b => [b, b]) NonNullSend (senderInit _ _ 3) senderStart).map
    Prod.snd).getD (senderInit _ _ 3)

/-- The event is still sent: the thread waits for `send`, and then comes out. -/
theorem sender_stops_during_pop :
    ∃ (es₀ es : List (SenderEvent (BitVec 8))) (u : TcpSender (BitVec 8) fourSlotRing),
      Exec (senderStep fun b => [b, b]) NonNullSend (senderInit _ _ 3) es₀ senderStopped ∧
      run (senderStep fun b => [b, b]) NonNullSend senderStopped [.io, .io] = some (es, u) ∧
      u.io = .send 7#8 ∧ (sentEvents es).length ≤ 1 ∧
      ((senderStep (fun b => [b, b]) u .io).isSome ∨
        ∃ ev, u.io = .send ev ∧ senderStep (fun b => [b, b]) u .io = none ∧
          ∀ taken, (senderStep (fun b => [b, b]) u (.sendReturns taken)).isSome) := by
  have h := exec_of_run (show run (senderStep fun b => [b, b]) NonNullSend (senderInit _ _ 3)
    senderStart = some (_, senderStopped) from rfl)
  have hrun : run (senderStep fun b => [b, b]) NonNullSend senderStopped [.io, .io] =
    some (_, _) := rfl
  obtain ⟨-, hsent, hnext⟩ := sender_stops _ _ _ _ h
    ⟨rfl, show SenderPc.pop ≠ .checkFd by simp, show SenderPc.pop ≠ .setRunning by simp⟩
    [.io, .io] (by decide) _ _ hrun
  exact ⟨_, _, _, h, hrun, rfl, hsent, (hnext (show SenderPc.send 7#8 ≠ .outside by simp)).2⟩

end Steps

end ConduitRuntime.Net
