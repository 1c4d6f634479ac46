import ConduitRuntime.Routing.FanSteps
import ConduitRuntime.Routing.Walk

/-! Switches and pollers under every interleaving. Each step is a step of at most one track, so a
run of the whole contains a run of every track, first in, first out. The calls add what a track
does not know: `on` releases an event exactly when one track has accepted it, and gives up only
when each bound track has refused it. -/
namespace ConduitRuntime.Routing
open Execution Memory ConduitRuntime.Ring
set_option autoImplicit false

section Safety
variable {σ π τ A : Type} {n m size : ℕ} [DecidableEq σ] [DecidableEq π] [DecidableEq τ]
variable {f g : FanThreads σ π τ A n m size} {e : FanEvent σ π τ A}

/-! ## The tracks inside a run -/

/-- What the step shows of the track `t`. -/
def FanEvent.on (t : τ) (e : FanEvent σ π τ A) : List (SpscEvent A) := component t e.track

/-- The step moves at most one track. -/
def TrackStep (f g : FanThreads σ π τ A n m size) (e : FanEvent σ π τ A) : Prop :=
  MovesOne spscStep NonNullPush f.tracks g.tracks e.track

omit [DecidableEq σ] [DecidableEq π] in
theorem trackStep_setTrack {t : τ} {c : Spsc A size} {ev : SpscEvent A} {b : SpscAction A}
    {answer : FanAnswer σ π τ A} (hb : NonNullPush (f.tracks t) b)
    (hstep : spscStep (f.tracks t) b = some (c, ev)) (hg : g.tracks = (f.setTrack t c).tracks) :
    TrackStep f g ⟨some (t, ev), answer⟩ := by
  rw [TrackStep, hg]
  exact MovesOne.update hb hstep

omit [DecidableEq π] [DecidableEq τ] in
theorem afterPush_tracks (f : FanThreads σ π τ A n m size) (s : σ) (ev : A) (refused : List τ)
    (idx : ℕ) (t : τ) (rest : List ℕ) (r : SpscEvent A) :
    (afterPush f s ev refused idx t rest r).1.tracks = f.tracks := by
  rcases r with _ | ⟨ptr, _ | _⟩ | ptr <;> rfl

omit [DecidableEq σ] [DecidableEq τ] in
theorem afterPop_tracks (f : FanThreads σ π τ A n m size) (p : π) (empty : List τ) (idx : ℕ)
    (t : τ) (rest : List ℕ) (r : SpscEvent A) :
    (afterPop f p empty idx t rest r).1.tracks = f.tracks := by
  rcases r with _ | ⟨ptr, b⟩ | (_ | ptr) <;> rfl

omit [DecidableEq π] in
theorem onStep_track {s : σ} (hs : onStep f s = some (g, e)) : TrackStep f g e := by
  unfold onStep at hs
  split at hs
  · cases hs
  · cases hs
    rfl
  · split at hs
    · cases hs
      rfl
    · obtain ⟨⟨c, ev⟩, hr, he⟩ := Option.map_eq_some_iff.mp hs
      cases he
      exact trackStep_setTrack (b := .callPush (some _)) trivial hr rfl
  · obtain ⟨⟨c, ev⟩, hr, he⟩ := Option.map_eq_some_iff.mp hs
    cases he
    exact trackStep_setTrack (b := .producer) trivial hr (afterPush_tracks _ _ _ _ _ _ _ _)

omit [DecidableEq σ] in
theorem pollStep_track {p : π} (hs : pollStep f p = some (g, e)) : TrackStep f g e := by
  unfold pollStep at hs
  split at hs
  · cases hs
  · cases hs
    rfl
  · split at hs
    · cases hs
      rfl
    · obtain ⟨⟨c, ev⟩, hr, he⟩ := Option.map_eq_some_iff.mp hs
      cases he
      exact trackStep_setTrack (b := .callPop) trivial hr rfl
  · obtain ⟨⟨c, ev⟩, hr, he⟩ := Option.map_eq_some_iff.mp hs
    cases he
    exact trackStep_setTrack (b := .consumer) trivial hr (afterPop_tracks _ _ _ _ _ _ _)

theorem fanThreadStep_track {a : FanAction σ π A} (hs : fanThreadStep f a = some (g, e)) :
    TrackStep f g e := by
  cases a with
  | callOn s ev =>
    simp only [fanThreadStep] at hs
    split at hs
    · cases hs
      rfl
    · cases hs
      rfl
    · cases hs
  | callPoll p =>
    simp only [fanThreadStep] at hs
    split at hs
    · cases hs
      rfl
    · cases hs
  | switch s => exact onStep_track hs
  | poller p => exact pollStep_track hs

/-- Every run of the whole contains a run of each track. -/
theorem track_run {switches : σ → Switch τ n} {pollers : π → Poller τ m} {hsize : 0 < size}
    {slots : τ → ℕ → Option A} {es : List (FanEvent σ π τ A)}
    (h : Exec fanThreadStep (fun _ _ => True) (fanThreadInit switches pollers hsize slots) es f)
    (t : τ) :
    Exec spscStep NonNullPush (spscInit hsize (slots t)) (es.flatMap (FanEvent.on t))
      (f.tracks t) := by
  exact h.component FanThreads.tracks FanEvent.track (fun _ _ _ _ _ hs => fanThreadStep_track hs) t

/-! ## A track between two threads -/

/-- The pointer a `push` in progress carries. -/
def carries {A : Type} : ProducerPc A → Option (Option A)
  | .idle => none
  | .loadWrite ptr => some ptr
  | .loadRead ptr _ => some ptr
  | .writeSlot ptr _ => some ptr
  | .storeWrite ptr _ => some ptr

/-- A step of `push` goes on with its pointer, or returns it. -/
theorem producer_carries {c d : Spsc A size} {ev : SpscEvent A} {ptr : Option A}
    (hc : carries c.producer = some ptr) (hs : spscStep c .producer = some (d, ev)) :
    (ev = .silent ∧ carries d.producer = some ptr) ∨ ∃ b, ev = .pushReturned ptr b := by
  obtain ⟨c, pc, k⟩ := c
  cases pc with
  | idle => cases hs
  | loadWrite q =>
    cases hs
    exact .inl ⟨rfl, hc⟩
  | loadRead q w =>
    obtain rfl : q = ptr := Option.some.inj hc
    simp only [spscStep, producerStep] at hs
    split_ifs at hs
    · cases hs
      exact .inr ⟨false, rfl⟩
    · cases hs
      exact .inl ⟨rfl, rfl⟩
  | writeSlot q w =>
    cases hs
    exact .inl ⟨rfl, hc⟩
  | storeWrite q w =>
    obtain rfl : q = ptr := Option.some.inj hc
    cases hs
    exact .inr ⟨true, rfl⟩

/-- The consumer's steps leave the producer where it is. -/
theorem consumer_producer {c d : Spsc A size} {ev : SpscEvent A}
    (hs : spscStep c .consumer = some (d, ev)) : d.producer = c.producer := by
  obtain ⟨c, q, pc⟩ := c
  cases pc with
  | idle => cases hs
  | loadRead =>
    cases hs
    rfl
  | loadWrite r =>
    simp only [spscStep, consumerStep] at hs
    split_ifs at hs <;> cases hs <;> rfl
  | readSlot r =>
    cases hs
    rfl
  | storeRead r ptr =>
    cases hs
    rfl

theorem consumer_event {c d : Spsc A size} {ev : SpscEvent A}
    (hs : spscStep c .consumer = some (d, ev)) : accepted [ev] = [] := by
  obtain ⟨c, q, pc⟩ := c
  cases pc with
  | idle => cases hs
  | loadRead =>
    cases hs
    rfl
  | loadWrite r =>
    simp only [spscStep, consumerStep] at hs
    split_ifs at hs <;> cases hs <;> rfl
  | readSlot r =>
    cases hs
    rfl
  | storeRead r ptr =>
    cases hs
    rfl

/-- `push` is refused only by a full ring. -/
theorem full_of_refused {es : List (SpscEvent A)} {c d : Spsc A size} (h : SpscInv es c)
    {b : SpscAction A} {ptr : Option A} (hs : spscStep c b = some (d, .pushReturned ptr false)) :
    c.conduit.contents.length = size - 1 := by
  obtain ⟨w, hw, hfull⟩ := pushReturned_false hs
  have hp := h.producer
  rw [hw] at hp
  rw [hp.2, c.conduit.full_iff] at hfull
  omega

/-- `pop` returns null only from an empty ring: what the ring holds is not null. -/
theorem empty_of_null {es : List (SpscEvent A)} {c d : Spsc A size} (h : SpscInv es c)
    {b : SpscAction A} (hs : spscStep c b = some (d, .popReturned none)) :
    c.conduit.contents = [] := by
  have hc := h.consumer
  rcases popReturned_none hs with ⟨r, hr, he⟩ | ⟨r, hr⟩
  · rw [hr] at hc
    obtain rfl : r = c.conduit.readIdx := hc
    exact c.conduit.empty_iff.mp he
  · rw [hr] at hc
    have hmem : none ∈ (accepted es).map some := by
      rw [h.flow]
      exact List.mem_append_right _ (List.mem_of_mem_head? hc.2)
    obtain ⟨q, -, hq⟩ := List.mem_map.mp hmem
    cases hq

/-! ## What the calls in progress have seen -/

/-- The walk from some `next_` has passed the bound tracks `done` and has `rest` to go. -/
def Walked (n : ℕ) (array : ℕ → Option τ) (done : List τ) (rest : List ℕ) : Prop :=
  ∃ next passed, indices n next = passed ++ rest ∧ done = passed.filterMap array

omit [DecidableEq τ] in
theorem Walked.start (n : ℕ) (array : ℕ → Option τ) (next : ℕ) :
    Walked n array [] (indices n next) :=
  ⟨next, [], rfl, rfl⟩

omit [DecidableEq τ] in
theorem Walked.skip {array : ℕ → Option τ} {done : List τ} {idx : ℕ} {rest : List ℕ}
    (h : Walked n array done (idx :: rest)) (hidx : array idx = none) :
    Walked n array done rest := by
  obtain ⟨next, passed, hwalk, rfl⟩ := h
  exact ⟨next, passed ++ [idx], by simp [hwalk], by simp [hidx]⟩

omit [DecidableEq τ] in
theorem Walked.pass {array : ℕ → Option τ} {done : List τ} {idx : ℕ} {t : τ} {rest : List ℕ}
    (h : Walked n array done (idx :: rest)) (hidx : array idx = some t) :
    Walked n array (done ++ [t]) rest := by
  obtain ⟨next, passed, hwalk, rfl⟩ := h
  exact ⟨next, passed ++ [idx], by simp [hwalk], by simp [hidx]⟩

omit [DecidableEq τ] in
/-- A walk with nothing to go has met every bound track. -/
theorem Walked.all {array : ℕ → Option τ} {done : List τ} (h : Walked n array done []) {idx : ℕ}
    (hidx : idx < n) {t : τ} (ht : array idx = some t) : t ∈ done := by
  obtain ⟨next, passed, hwalk, rfl⟩ := h
  have hmem : idx ∈ passed := by
    rw [List.append_nil] at hwalk
    rw [← hwalk, indices_eq_rotate, List.mem_rotate]
    exact List.mem_range.mpr hidx
  exact List.mem_filterMap.mpr ⟨idx, hmem, ht⟩

def OnOk (outputs : ℕ → Option τ) (n : ℕ) (tracks : τ → Spsc A size) : OnPc τ A → Prop
  | .idle => True
  | .walk _ refused rest => Walked n outputs refused rest
  | .push ev refused idx t rest => Walked n outputs refused (idx :: rest) ∧
      outputs idx = some t ∧ carries (tracks t).producer = some (some ev)

def PollOk (inputs : ℕ → Option τ) (m : ℕ) : PollPc τ → Prop
  | .idle => True
  | .walk empty rest => Walked m inputs empty rest
  | .pop empty idx t rest => Walked m inputs empty (idx :: rest) ∧ inputs idx = some t

structure FanInv (switches : σ → Switch τ n) (pollers : π → Poller τ m)
    (f : FanThreads σ π τ A n m size) : Prop where
  outputs : ∀ s, (f.switches s).outputs = (switches s).outputs
  inputs : ∀ p, (f.pollers p).inputs = (pollers p).inputs
  on : ∀ s, OnOk (switches s).outputs n f.tracks (f.onPc s)
  poll : ∀ p, PollOk (pollers p).inputs m (f.pollPc p)

variable {switches : σ → Switch τ n} {pollers : π → Poller τ m}

omit [DecidableEq τ] in
theorem OnOk.tracks {outputs : ℕ → Option τ} {tracks tracks' : τ → Spsc A size} {pc : OnPc τ A}
    (h : OnOk outputs n tracks pc)
    (hsame : ∀ idx t, outputs idx = some t → (tracks' t).producer = (tracks t).producer) :
    OnOk outputs n tracks' pc := by
  cases pc with
  | idle => trivial
  | walk ev refused rest => exact h
  | push ev refused idx t rest =>
    obtain ⟨hwalk, hidx, hcarry⟩ := h
    refine ⟨hwalk, hidx, ?_⟩
    rw [hsame idx t hidx]
    exact hcarry

omit [DecidableEq σ] [DecidableEq π] [DecidableEq τ] in
/-- A step of the switch `s`, on a track of its own if on any. -/
theorem FanInv.switched (h : FanInv switches pollers f) (hone : OneEach switches pollers) {s : σ}
    (hout : ∀ v, (g.switches v).outputs = (f.switches v).outputs) (hpollers : g.pollers = f.pollers)
    (hpc : ∀ v, v ≠ s → g.onPc v = f.onPc v) (hpoll : g.pollPc = f.pollPc)
    (htracks : ∀ t, g.tracks t ≠ f.tracks t → ∃ idx, (switches s).outputs idx = some t)
    (hs : OnOk (switches s).outputs n g.tracks (g.onPc s)) : FanInv switches pollers g where
  outputs v := (hout v).trans (h.outputs v)
  inputs p := by rw [hpollers, h.inputs p]
  on v := by
    by_cases hv : v = s
    · subst hv
      exact hs
    · rw [hpc v hv]
      refine (h.on v).tracks fun idx t ht => ?_
      by_contra hne
      obtain ⟨idx', ht'⟩ := htracks t fun heq => hne (by rw [heq])
      exact hv (hone.producer v s idx idx' t ht ht')
  poll p := by
    rw [hpoll]
    exact h.poll p

omit [DecidableEq σ] [DecidableEq π] [DecidableEq τ] in
/-- A step of the poller `p`; no producer moves. -/
theorem FanInv.polled (h : FanInv switches pollers f) {p : π}
    (hswitches : g.switches = f.switches) (hin : ∀ v, (g.pollers v).inputs = (f.pollers v).inputs)
    (hpc : ∀ v, v ≠ p → g.pollPc v = f.pollPc v) (hon : g.onPc = f.onPc)
    (htracks : ∀ t, (g.tracks t).producer = (f.tracks t).producer)
    (hp : PollOk (pollers p).inputs m (g.pollPc p)) : FanInv switches pollers g where
  outputs s := by rw [hswitches, h.outputs s]
  inputs v := (hin v).trans (h.inputs v)
  on s := by
    rw [hon]
    exact (h.on s).tracks fun idx t _ => htracks t
  poll v := by
    by_cases hv : v = p
    · subst hv
      exact hp
    · rw [hpc v hv]
      exact h.poll v

omit [DecidableEq π] [DecidableEq τ] in
theorem advanceSwitch_outputs (f : FanThreads σ π τ A n m size) (s v : σ) (idx : ℕ) :
    ((f.advanceSwitch s idx).switches v).outputs = (f.switches v).outputs := by
  by_cases hv : v = s
  · subst hv
    simp [FanThreads.advanceSwitch]
  · simp [FanThreads.advanceSwitch, hv]

omit [DecidableEq σ] [DecidableEq τ] in
theorem advancePoller_inputs (f : FanThreads σ π τ A n m size) (p v : π) (idx : ℕ) :
    ((f.advancePoller p idx).pollers v).inputs = (f.pollers v).inputs := by
  by_cases hv : v = p
  · subst hv
    simp [FanThreads.advancePoller]
  · simp [FanThreads.advancePoller, hv]

omit [DecidableEq σ] [DecidableEq π] in
theorem setTrack_ne {t v : τ} {c : Spsc A size} (h : (f.setTrack t c).tracks v ≠ f.tracks v) :
    v = t := by
  by_contra hv
  exact h (by simp [FanThreads.setTrack, hv])

omit [DecidableEq π] in
theorem FanInv.onStep (h : FanInv switches pollers f) (hone : OneEach switches pollers) {s : σ}
    (hs : onStep f s = some (g, e)) : FanInv switches pollers g := by
  have hon := h.on s
  unfold Routing.onStep at hs
  split at hs
  · cases hs
  · cases hs
    exact h.switched hone (s := s) (fun _ => rfl) rfl (fun v hv => by simp [FanThreads.setOn, hv])
      rfl (fun t ht => absurd rfl ht) (by simp [FanThreads.setOn, OnOk])
  · rename_i ev refused idx rest hpc
    rw [hpc] at hon
    split at hs
    · rename_i hidx
      rw [h.outputs s] at hidx
      cases hs
      exact h.switched hone (s := s) (fun _ => rfl) rfl
        (fun v hv => by simp [FanThreads.setOn, hv]) rfl (fun t ht => absurd rfl ht)
        (by simpa [FanThreads.setOn, OnOk] using Walked.skip hon hidx)
    · rename_i t hidx
      rw [h.outputs s] at hidx
      obtain ⟨⟨c, r⟩, hr, he⟩ := Option.map_eq_some_iff.mp hs
      cases he
      refine h.switched hone (s := s) (fun _ => rfl) rfl
        (fun v hv => by simp [FanThreads.setOn, FanThreads.setTrack, hv]) rfl ?_ ?_
      · intro v hv
        obtain rfl := setTrack_ne hv
        exact ⟨idx, hidx⟩
      · have hcarry : carries c.producer = some (some ev) := by
          simp only [spscStep] at hr
          split at hr
          · cases hr
            rfl
          · cases hr
        simpa [FanThreads.setOn, FanThreads.setTrack, OnOk] using ⟨hon, hidx, hcarry⟩
  · rename_i ev refused idx t rest hpc
    rw [hpc] at hon
    obtain ⟨hwalk, hidx, hcarry⟩ := hon
    obtain ⟨⟨c, r⟩, hr, he⟩ := Option.map_eq_some_iff.mp hs
    cases he
    have htracks : ∀ v, (f.setTrack t c).tracks v ≠ f.tracks v →
        ∃ idx, (switches s).outputs idx = some v := by
      intro v hv
      obtain rfl := setTrack_ne hv
      exact ⟨idx, hidx⟩
    rcases producer_carries hcarry hr with ⟨rfl, hcarry'⟩ | ⟨b, rfl⟩
    · refine h.switched hone (s := s) (fun _ => rfl) rfl (fun v hv => rfl) rfl htracks ?_
      simpa [afterPush, FanThreads.setTrack, hpc, OnOk] using ⟨hwalk, hidx, hcarry'⟩
    · cases b with
      | true =>
        refine h.switched hone (s := s) (fun v => advanceSwitch_outputs _ s v idx) rfl
          (fun v hv => ?_) rfl htracks ?_
        · simp [FanThreads.setOn, FanThreads.advanceSwitch, FanThreads.setTrack, hv]
        · simp [FanThreads.setOn, OnOk]
      | false =>
        refine h.switched hone (s := s) (fun _ => rfl) rfl (fun v hv => ?_) rfl htracks ?_
        · simp [FanThreads.setOn, FanThreads.setTrack, hv]
        · simpa [afterPush, FanThreads.setOn, OnOk] using hwalk.pass hidx

omit [DecidableEq σ] in
theorem FanInv.pollStep (h : FanInv switches pollers f) {p : π}
    (hs : pollStep f p = some (g, e)) : FanInv switches pollers g := by
  have hpoll := h.poll p
  have hproducer : ∀ t c, c.producer = (f.tracks t).producer →
      ∀ v, ((f.setTrack t c).tracks v).producer = (f.tracks v).producer := by
    intro t c hc v
    by_cases hv : v = t
    · subst hv
      simpa [FanThreads.setTrack] using hc
    · simp [FanThreads.setTrack, hv]
  unfold Routing.pollStep at hs
  split at hs
  · cases hs
  · cases hs
    exact h.polled (p := p) rfl (fun _ => rfl) (fun v hv => by simp [FanThreads.setPoll, hv]) rfl
      (fun _ => rfl) (by simp [FanThreads.setPoll, PollOk])
  · rename_i empty idx rest hpc
    rw [hpc] at hpoll
    split at hs
    · rename_i hidx
      rw [h.inputs p] at hidx
      cases hs
      exact h.polled (p := p) rfl (fun _ => rfl) (fun v hv => by simp [FanThreads.setPoll, hv])
        rfl (fun _ => rfl) (by simpa [FanThreads.setPoll, PollOk] using Walked.skip hpoll hidx)
    · rename_i t hidx
      rw [h.inputs p] at hidx
      obtain ⟨⟨c, r⟩, hr, he⟩ := Option.map_eq_some_iff.mp hs
      cases he
      refine h.polled (p := p) rfl (fun _ => rfl)
        (fun v hv => by simp [FanThreads.setPoll, FanThreads.setTrack, hv]) rfl
        (hproducer t c ?_) (by simpa [FanThreads.setPoll, PollOk] using ⟨hpoll, hidx⟩)
      simp only [spscStep] at hr
      split at hr
      · cases hr
        rfl
      · cases hr
  · rename_i empty idx t rest hpc
    rw [hpc] at hpoll
    obtain ⟨hwalk, hidx⟩ := hpoll
    obtain ⟨⟨c, r⟩, hr, he⟩ := Option.map_eq_some_iff.mp hs
    cases he
    have htracks := hproducer t c (consumer_producer hr)
    rcases r with _ | ⟨ptr, b⟩ | (_ | ptr)
    · refine h.polled (p := p) rfl (fun _ => rfl) (fun v hv => rfl) rfl htracks ?_
      simpa [afterPop, FanThreads.setTrack, hpc, PollOk] using ⟨hwalk, hidx⟩
    · refine h.polled (p := p) rfl (fun _ => rfl) (fun v hv => rfl) rfl htracks ?_
      simpa [afterPop, FanThreads.setTrack, hpc, PollOk] using ⟨hwalk, hidx⟩
    · refine h.polled (p := p) rfl (fun _ => rfl) (fun v hv => ?_) rfl htracks ?_
      · simp [FanThreads.setPoll, FanThreads.setTrack, hv]
      · simpa [afterPop, FanThreads.setPoll, PollOk] using hwalk.pass hidx
    · refine h.polled (p := p) rfl (fun v => advancePoller_inputs _ p v idx) (fun v hv => ?_) rfl
        htracks ?_
      · simp [FanThreads.setPoll, FanThreads.advancePoller, FanThreads.setTrack, hv]
      · simp [FanThreads.setPoll, PollOk]

theorem FanInv.step (h : FanInv switches pollers f) (hone : OneEach switches pollers)
    {a : FanAction σ π A} (hs : fanThreadStep f a = some (g, e)) : FanInv switches pollers g := by
  cases a with
  | callOn s ev =>
    simp only [fanThreadStep] at hs
    split at hs
    · cases hs
      exact h
    · cases hs
      exact h.switched hone (s := s) (fun _ => rfl) rfl (fun v hv => by simp [FanThreads.setOn, hv])
        rfl (fun t ht => absurd rfl ht) (by simpa [FanThreads.setOn, OnOk] using Walked.start n _ _)
    · cases hs
  | callPoll p =>
    simp only [fanThreadStep] at hs
    split at hs
    · cases hs
      exact h.polled (p := p) rfl (fun _ => rfl) (fun v hv => by simp [FanThreads.setPoll, hv]) rfl
        (fun _ => rfl) (by simpa [FanThreads.setPoll, PollOk] using Walked.start m _ _)
    · cases hs
  | switch s => exact h.onStep hone hs
  | poller p => exact h.pollStep hs

/-! ## What the callers see -/

/-- The event a step lets go into the track `t`. -/
def FanAnswer.gives (t : τ) : FanAnswer σ π τ A → List A
  | .released _ v ev => if v = t then [ev] else []
  | _ => []

/-- The event a step hands out of the track `t`. -/
def FanAnswer.takes (t : τ) : FanAnswer σ π τ A → List A
  | .found _ v ev => if v = t then [ev] else []
  | _ => []

/-- The events that `on` has released into the track `t`, and those that `poll` has found there. -/
def gaveTo (t : τ) (es : List (FanEvent σ π τ A)) : List A := es.flatMap fun e => e.answer.gives t

def gotFrom (t : τ) (es : List (FanEvent σ π τ A)) : List A := es.flatMap fun e => e.answer.takes t

omit [DecidableEq π] in
theorem FanInv.switch_answer (h : FanInv switches pollers f) {s : σ}
    (hs : Routing.onStep f s = some (g, e)) (t : τ) :
    e.answer.gives t = accepted (e.on t) ∧ e.answer.takes t = popped (e.on t) := by
  have hon := h.on s
  unfold Routing.onStep at hs
  split at hs
  · cases hs
  · cases hs
    exact ⟨rfl, rfl⟩
  · split at hs
    · cases hs
      exact ⟨rfl, rfl⟩
    · rename_i v hidx
      obtain ⟨⟨c, r⟩, hr, he⟩ := Option.map_eq_some_iff.mp hs
      cases he
      have hsilent : r = .silent := by
        simp only [spscStep] at hr
        split at hr <;> cases hr
        rfl
      subst hsilent
      by_cases hv : v = t <;>
        simp [FanAnswer.gives, FanAnswer.takes, FanEvent.on, component, hv, accepted, popped]
  · rename_i ev refused idx v rest hpc
    rw [hpc] at hon
    obtain ⟨⟨c, r⟩, hr, he⟩ := Option.map_eq_some_iff.mp hs
    cases he
    rcases producer_carries hon.2.2 hr with ⟨rfl, -⟩ | ⟨_ | _, rfl⟩ <;> by_cases hv : v = t <;>
      simp [FanAnswer.gives, FanAnswer.takes, FanEvent.on, component, hv, accepted, popped]

omit [DecidableEq σ] in
theorem poller_answer {p : π} (hs : pollStep f p = some (g, e)) (t : τ) :
    e.answer.gives t = accepted (e.on t) ∧ e.answer.takes t = popped (e.on t) := by
  unfold Routing.pollStep at hs
  split at hs
  · cases hs
  · cases hs
    exact ⟨rfl, rfl⟩
  · split at hs
    · cases hs
      exact ⟨rfl, rfl⟩
    · rename_i v hidx
      obtain ⟨⟨c, r⟩, hr, he⟩ := Option.map_eq_some_iff.mp hs
      cases he
      have hsilent : r = .silent := by
        simp only [spscStep] at hr
        split at hr <;> cases hr
        rfl
      subst hsilent
      by_cases hv : v = t <;>
        simp [FanAnswer.gives, FanAnswer.takes, FanEvent.on, component, hv, accepted, popped]
  · rename_i empty idx v rest hpc
    obtain ⟨⟨c, r⟩, hr, he⟩ := Option.map_eq_some_iff.mp hs
    cases he
    have hquiet := consumer_event hr
    rcases r with _ | ⟨ptr, b⟩ | (_ | ptr) <;> by_cases hv : v = t <;>
      simp_all [afterPop, FanAnswer.gives, FanAnswer.takes, FanEvent.on, component, accepted,
        popped]

theorem FanInv.answer (h : FanInv switches pollers f) {a : FanAction σ π A}
    (hs : fanThreadStep f a = some (g, e)) (t : τ) :
    e.answer.gives t = accepted (e.on t) ∧ e.answer.takes t = popped (e.on t) := by
  cases a with
  | callOn s ev =>
    simp only [fanThreadStep] at hs
    split at hs <;> cases hs <;> exact ⟨rfl, rfl⟩
  | callPoll p =>
    simp only [fanThreadStep] at hs
    split at hs <;> cases hs
    exact ⟨rfl, rfl⟩
  | switch s => exact h.switch_answer hs t
  | poller p => exact poller_answer hs t

/-! ## Whole runs -/

theorem fan_invariant {hsize : 0 < size} {slots : τ → ℕ → Option A} {es : List (FanEvent σ π τ A)}
    (hone : OneEach switches pollers)
    (h : Exec fanThreadStep (fun _ _ => True) (fanThreadInit switches pollers hsize slots) es f) :
    FanInv switches pollers f := by
  refine h.invariant (fun _ f => FanInv switches pollers f) ?_ ?_
  · exact ⟨fun _ => rfl, fun _ => rfl, fun _ => trivial, fun _ => trivial⟩
  · intro _ f a g e hi _ hs
    exact hi.step hone hs

theorem fan_answers {hsize : 0 < size} {slots : τ → ℕ → Option A} {es : List (FanEvent σ π τ A)}
    (hone : OneEach switches pollers)
    (h : Exec fanThreadStep (fun _ _ => True) (fanThreadInit switches pollers hsize slots) es f)
    (t : τ) : gaveTo t es = accepted (es.flatMap (FanEvent.on t)) ∧
      gotFrom t es = popped (es.flatMap (FanEvent.on t)) := by
  have hboth : FanInv switches pollers f ∧ gaveTo t es = accepted (es.flatMap (FanEvent.on t)) ∧
      gotFrom t es = popped (es.flatMap (FanEvent.on t)) := by
    refine h.invariant (fun es f => FanInv switches pollers f ∧
      gaveTo t es = accepted (es.flatMap (FanEvent.on t)) ∧
      gotFrom t es = popped (es.flatMap (FanEvent.on t))) ?_ ?_
    · exact ⟨fan_invariant hone .nil, rfl, rfl⟩
    · rintro es f a g e ⟨hi, hgave, hgot⟩ - hs
      obtain ⟨hg, ht⟩ := hi.answer hs t
      refine ⟨hi.step hone hs, ?_, ?_⟩
      · rw [List.flatMap_append, accepted_append, ← hgave]
        simp [gaveTo, hg]
      · rw [List.flatMap_append, popped_append, ← hgot]
        simp [gotFrom, ht]
  exact hboth.2

/-- An answer that gives up has tried everything its call is bound to. -/
def GivesUp (switches : σ → Switch τ n) (pollers : π → Poller τ m) : FanAnswer σ π τ A → Prop
  | .kept s _ refused => Walked n (switches s).outputs refused []
  | .null p empty => Walked m (pollers p).inputs empty []
  | _ => True

omit [DecidableEq π] in
theorem FanInv.switch_givesUp (h : FanInv switches pollers f) {s : σ}
    (hs : Routing.onStep f s = some (g, e)) : GivesUp switches pollers e.answer := by
  have hon := h.on s
  unfold Routing.onStep at hs
  split at hs
  · cases hs
  · rename_i ev refused hpc
    rw [hpc] at hon
    cases hs
    exact hon
  · split at hs
    · cases hs
      trivial
    · obtain ⟨⟨c, r⟩, -, he⟩ := Option.map_eq_some_iff.mp hs
      cases he
      trivial
  · obtain ⟨⟨c, r⟩, -, he⟩ := Option.map_eq_some_iff.mp hs
    cases he
    rcases r with _ | ⟨ptr, _ | _⟩ | ptr <;> trivial

omit [DecidableEq σ] in
theorem FanInv.poller_givesUp (h : FanInv switches pollers f) {p : π}
    (hs : Routing.pollStep f p = some (g, e)) : GivesUp switches pollers e.answer := by
  have hpoll := h.poll p
  unfold Routing.pollStep at hs
  split at hs
  · cases hs
  · rename_i empty hpc
    rw [hpc] at hpoll
    cases hs
    exact hpoll
  · split at hs
    · cases hs
      trivial
    · obtain ⟨⟨c, r⟩, -, he⟩ := Option.map_eq_some_iff.mp hs
      cases he
      trivial
  · obtain ⟨⟨c, r⟩, -, he⟩ := Option.map_eq_some_iff.mp hs
    cases he
    rcases r with _ | ⟨ptr, b⟩ | (_ | ptr) <;> trivial

theorem FanInv.givesUp (h : FanInv switches pollers f) {a : FanAction σ π A}
    (hs : fanThreadStep f a = some (g, e)) : GivesUp switches pollers e.answer := by
  cases a with
  | callOn s ev =>
    simp only [fanThreadStep] at hs
    split at hs <;> cases hs <;> trivial
  | callPoll p =>
    simp only [fanThreadStep] at hs
    split at hs <;> cases hs
    trivial
  | switch s => exact h.switch_givesUp hs
  | poller p => exact h.poller_givesUp hs

/-- Under every interleaving of switches and pollers of which each track has one of either: what
`on` released into a track is what `poll` found there and what the track holds, in order; an event
stays with its caller only when each bound track has refused it, and null is returned only when
each has been empty, since the call began; and a track refuses only while it is full, and is passed
over only while it is empty. -/
theorem fan_threads_exact (hone : OneEach switches pollers) (hsize : 1 ≤ size)
    (slots : τ → ℕ → Option A) (es : List (FanEvent σ π τ A)) (f : FanThreads σ π τ A n m size)
    (h : Exec fanThreadStep (fun _ _ => True) (fanThreadInit switches pollers hsize slots) es f) :
    (∀ t, (gaveTo t es).map some = (gotFrom t es).map some ++ (f.tracks t).conduit.contents) ∧
    (∀ a g track s ev refused, fanThreadStep f a = some (g, ⟨track, .kept s ev refused⟩) →
      ∀ idx < n, ∀ t, (switches s).outputs idx = some t → t ∈ refused) ∧
    (∀ a g track p empty, fanThreadStep f a = some (g, ⟨track, .null p empty⟩) →
      ∀ idx < m, ∀ t, (pollers p).inputs idx = some t → t ∈ empty) ∧
    (∀ a g t ptr answer, fanThreadStep f a = some (g, ⟨some (t, .pushReturned ptr false), answer⟩) →
      (f.tracks t).conduit.contents.length = size - 1) ∧
    (∀ a g t answer, fanThreadStep f a = some (g, ⟨some (t, .popReturned none), answer⟩) →
      (f.tracks t).conduit.contents = []) := by
  have hi := fan_invariant hone h
  refine ⟨fun t => ?_, ?_, ?_, ?_, ?_⟩
  · obtain ⟨hgave, hgot⟩ := fan_answers hone h t
    rw [hgave, hgot]
    exact (spsc_invariant hsize (track_run h t)).flow
  · intro a g track s ev refused hs idx hidx t ht
    have hwalk : Walked n (switches s).outputs refused [] := hi.givesUp hs
    exact hwalk.all hidx ht
  · intro a g track p empty hs idx hidx t ht
    have hwalk : Walked m (pollers p).inputs empty [] := hi.givesUp hs
    exact hwalk.all hidx ht
  · intro a g t ptr answer hs
    obtain ⟨⟨b, -, hstep⟩, -⟩ := fanThreadStep_track hs
    exact full_of_refused (spsc_invariant hsize (track_run h t)) hstep
  · intro a g t answer hs
    obtain ⟨⟨b, -, hstep⟩, -⟩ := fanThreadStep_track hs
    exact empty_of_null (spsc_invariant hsize (track_run h t)) hstep

/-- One switch over two tracks of two slots, one poller per track. The third event finds both tracks
full and stays with its caller. -/
theorem fan_threads_exact_two_workers :
    ∃ (es : List (FanEvent Unit Bool Bool ℕ)) (f : FanThreads Unit Bool Bool ℕ 2 1 2),
      Exec fanThreadStep (fun _ _ => True) (fanThreadInit
        (fun _ => ⟨fun i => if i = 0 then some false else some true, 0⟩)
        (fun p => ⟨fun _ => some p, 0⟩) (by decide) fun _ _ => none) es f ∧
      gaveTo true es = [8] ∧ gotFrom true es = [] ∧ gotFrom false es = [7] ∧
      (f.tracks true).conduit.contents = [some 8] := by
  have h := exec_of_run (show run fanThreadStep (fun _ _ => True) (fanThreadInit
      (fun _ : Unit => (⟨fun i => if i = 0 then some false else some true, 0⟩ : Switch Bool 2))
      (fun p : Bool => (⟨fun _ => some p, 0⟩ : Poller Bool 1)) (by decide : 0 < 2) fun _ _ => none)
    [.callOn () (some 7), .switch (), .switch (), .callPoll false, .switch (), .poller false,
      .switch (), .switch (), .callOn () (some 8), .switch (), .switch (), .switch (), .switch (),
      .switch (), .callOn () (some 9), .switch (), .switch (), .switch (), .switch (), .switch (),
      .switch (), .switch (), .poller false, .poller false, .poller false, .poller false] =
      some (_, _) from rfl)
  have hone : OneEach (fun _ : Unit => (⟨fun i => if i = 0 then some false else some true, 0⟩ :
      Switch Bool 2)) (fun p : Bool => (⟨fun _ => some p, 0⟩ : Poller Bool 1)) := by
    refine ⟨fun _ _ _ _ _ _ _ => rfl, fun p q i j t hp hq => ?_⟩
    exact (Option.some.inj hp).trans (Option.some.inj hq).symm
  have hexact := (fan_threads_exact hone (by decide) _ _ _ h).1 true
  exact ⟨_, _, h, rfl, rfl, rfl, hexact.symm⟩

end Safety

end ConduitRuntime.Routing
