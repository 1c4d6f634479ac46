import ConduitRuntime.Foundations.Execution
import ConduitRuntime.Http.Accepts
import ConduitRuntime.Http.Gateway

/-! Whether an event still says, when the Core pops it, what its client sent. Every reception writes
over the one buffer that the queued events look into, so the answer depends on what is in the
conduit at that moment. -/
namespace ConduitRuntime.Http
open Execution Slices ConduitRuntime.Ring
set_option autoImplicit false

variable {size base : ℕ}

/-! ## Requests in and events out -/

/-- The message of the received bytes on their own. -/
def messageOf (bytes : List UInt8) : Message :=
  (parse (memoryOf bytes) 0 bytes.length (.unset 0)).2.message (memoryOf bytes)

def sentOf : Outcome → Option (ℕ × Message)
  | .queued clientFd bytes => some (clientFd, messageOf bytes)
  | _ => none

def servedOf : Outcome → Option (ℕ × Message)
  | .popped connectionId message => some (connectionId, message)
  | _ => none

/-- The queued requests, oldest first: the descriptor and what its client said. -/
def sent (es : List Outcome) : List (ℕ × Message) := es.filterMap sentOf

/-- The popped events, oldest first: the connection id and what the Core reads. -/
def served (es : List Outcome) : List (ℕ × Message) := es.filterMap servedOf

namespace Gateway

/-- The cells in the conduit, oldest first. -/
def queued (s : Gateway size) : List ℕ := s.coreConduit.contents.filterMap id

/-- What a queued event says if the memory is `mem`. -/
def denotes (s : Gateway size) (mem : ℕ → UInt8) (cell : ℕ) : ℕ × Message :=
  ((s.events cell).connectionId, (s.events cell).message mem)

def pending (s : Gateway size) : List (ℕ × Message) := s.queued.map (s.denotes s.mem)

/-- The memory after the reception that the action makes, if any. -/
def memAfter (base : ℕ) (s : Gateway size) : Action → ℕ → UInt8
  | .iterate (some (_, bytes)) => store s.mem base bytes
  | _ => s.mem

/-- Every cell is in one place, and the conduit holds no null pointer. -/
structure Owned (s : Gateway size) : Prop where
  contents : s.coreConduit.contents = s.queued.map some
  nodup : (s.free ++ (s.queued ++ s.held)).Nodup

end Gateway

/-- All popped events and all events still queued say what their clients sent, in order. -/
def Intact (es : List Outcome) (s : Gateway size) : Prop := served es ++ s.pending = sent es

/-- The reception, if there is one, leaves what the queued events say as it is. -/
def Undisturbed (base : ℕ) (s : Gateway size) (a : Action) : Prop :=
  ∀ cell ∈ s.queued, (s.events cell).message (s.memAfter base a) = (s.events cell).message s.mem

instance (s : Gateway size) (a : Action) : Decidable (Undisturbed base s a) :=
  inferInstanceAs (Decidable (∀ cell ∈ s.queued, _))

theorem undisturbed_iff (s : Gateway size) (a : Action) :
    s.queued.map (s.denotes (s.memAfter base a)) = s.pending ↔ Undisturbed base s a := by
  rw [Gateway.pending, List.map_inj_left]
  simp only [Gateway.denotes, Prod.mk.injEq, true_and]
  rfl

/-! ## Received bytes -/

theorem slice_store (mem : ℕ → UInt8) (base : ℕ) (bytes : List UInt8) :
    slice (byte (store mem base bytes) base) 0 bytes.length = bytes := by
  apply List.ext_getElem
  · simp
  · intro k _ hk
    have hk' : k < bytes.length := hk
    simp [slice, byte, store, hk']

theorem slice_memoryOf (bytes : List UInt8) :
    slice (byte (memoryOf bytes) 0) 0 bytes.length = bytes := by
  apply List.ext_getElem
  · simp
  · intro k _ hk
    have hk' : k < bytes.length := hk
    simp [slice, byte, memoryOf, hk']

theorem message_eq_messageOf {mem : ℕ → UInt8} {bytes : List UInt8} {ev : HttpRequestEvent}
    (hfresh : ev.headerCount = 0)
    (h : (parse (store mem base bytes) base bytes.length ev).1 = true) :
    (parse (store mem base bytes) base bytes.length ev).2.message (store mem base bytes) =
      messageOf bytes :=
  parse_message_congr ((slice_store mem base bytes).trans (slice_memoryOf bytes).symm) hfresh rfl h

/-! ## One step -/

/-- From `s` to `t` with outcome `e`, the memory having become `mem` under the queued events. -/
structure Advances (s : Gateway size) (mem : ℕ → UInt8) (t : Gateway size) (e : Outcome) :
    Prop where
  owned : t.Owned
  trace : (servedOf e).toList ++ t.pending = s.queued.map (s.denotes mem) ++ (sentOf e).toList

theorem pending_eq_of_agree {s t : Gateway size} (hqueued : t.queued = s.queued)
    (hevents : ∀ cell ∈ s.queued, t.events cell = s.events cell) :
    t.pending = s.queued.map (s.denotes t.mem) := by
  rw [Gateway.pending, hqueued]
  refine List.map_congr_left fun cell hcell => ?_
  simp only [Gateway.denotes, hevents cell hcell]

/-- A step that keeps the conduit and touches no queued event. -/
theorem advances_of_agree {s t : Gateway size} {mem : ℕ → UInt8} {e : Outcome}
    (hmem : t.mem = mem) (howned : t.Owned) (hqueued : t.queued = s.queued)
    (hevents : ∀ cell ∈ s.queued, t.events cell = s.events cell)
    (hserved : servedOf e = none) (hsent : sentOf e = none) : Advances s mem t e := by
  refine ⟨howned, ?_⟩
  rw [hserved, hsent, pending_eq_of_agree hqueued hevents, hmem]
  simp

theorem queued_push {c c' : Conduit ℕ size} {cell : ℕ}
    (h : c'.contents = c.contents ++ [some cell]) :
    c'.contents.filterMap id = c.contents.filterMap id ++ [cell] := by
  rw [h, List.filterMap_append]
  rfl

theorem serve_of_cons (s : Gateway size) (clientFd : ℕ) (bytes : List UInt8) {cell : ℕ}
    {free : List ℕ} (hfree : s.free = cell :: free) :
    s.serve base clientFd bytes =
      let (parsed, ev) := parse (store s.mem base bytes) base bytes.length (.unset clientFd)
      let events := Function.update s.events cell ev
      if parsed then
        if (s.coreConduit.push (some cell)).2 then
          (⟨s.isRunning, store s.mem base bytes, free, events, (s.coreConduit.push (some cell)).1,
            s.held⟩, .queued clientFd bytes)
        else (⟨s.isRunning, store s.mem base bytes, cell :: free, events,
          (s.coreConduit.push (some cell)).1, s.held⟩, send503 clientFd)
      else (⟨s.isRunning, store s.mem base bytes, cell :: free, events, s.coreConduit, s.held⟩,
        send400 clientFd) := by
  simp only [Gateway.serve, Gateway.allocate, hfree, Gateway.deallocate, Function.update_self,
    Function.update_idem]
  rfl

theorem Gateway.Owned.notMem_queued {s : Gateway size} (h : s.Owned) {cell : ℕ} {free : List ℕ}
    (hfree : s.free = cell :: free) : cell ∉ s.queued := by
  have hnodup := h.nodup
  rw [hfree, List.cons_append, List.nodup_cons] at hnodup
  exact fun hmem => hnodup.1 (List.mem_append_right _ (List.mem_append_left _ hmem))

theorem update_agree {s : Gateway size} {cell : ℕ} (hcell : cell ∉ s.queued)
    (ev : HttpRequestEvent) :
    ∀ c ∈ s.queued, Function.update s.events cell ev c = s.events c := by
  intro c hc
  have hne : c ≠ cell := fun e => hcell (e ▸ hc)
  exact Function.update_of_ne hne _ _

/-- The push of a fresh event makes it the last of the queue. -/
theorem push_advances {s t : Gateway size} {mem : ℕ → UInt8} (h : s.Owned) {cell clientFd : ℕ}
    {free : List ℕ} {bytes : List UInt8} (hmem : t.mem = mem) (hfree : s.free = cell :: free)
    (htfree : t.free = free) (hheld : t.held = s.held)
    (hcontents : t.coreConduit.contents = s.coreConduit.contents ++ [some cell])
    (hevents : ∀ c ∈ s.queued, t.events c = s.events c)
    (hcell : t.denotes mem cell = (clientFd, messageOf bytes)) :
    Advances s mem t (.queued clientFd bytes) := by
  have hqueued : t.queued = s.queued ++ [cell] := queued_push hcontents
  refine ⟨⟨?_, ?_⟩, ?_⟩
  · rw [hcontents, hqueued, h.contents, List.map_append, List.map_singleton]
  · have hnodup := h.nodup
    rw [hfree] at hnodup
    rw [htfree, hheld, hqueued]
    refine (List.Perm.nodup_iff ?_).mpr hnodup
    rw [List.append_assoc, List.singleton_append, ← List.append_assoc]
    refine List.perm_middle.trans ?_
    rw [List.append_assoc, List.cons_append]
  · have hold : s.queued.map (t.denotes mem) = s.queued.map (s.denotes mem) :=
      List.map_congr_left fun c hc => by simp only [Gateway.denotes, hevents c hc]
    rw [Gateway.pending, hmem, hqueued, List.map_append, hold, List.map_singleton, hcell]
    rfl

theorem serve_advances {s : Gateway size} (h : s.Owned) (clientFd : ℕ) (bytes : List UInt8) :
    Advances s (store s.mem base bytes) (s.serve base clientFd bytes).1
      (s.serve base clientFd bytes).2 := by
  cases hfree : s.free with
  | nil =>
    have hserve : s.serve base clientFd bytes =
        ({ s with mem := store s.mem base bytes }, send503 clientFd) := by
      simp only [Gateway.serve, Gateway.allocate, hfree]
    rw [hserve]
    exact advances_of_agree rfl ⟨h.contents, h.nodup⟩ rfl (fun _ _ => rfl) rfl rfl
  | cons cell free =>
    have hagree := update_agree (h.notMem_queued hfree)
      (parse (store s.mem base bytes) base bytes.length (.unset clientFd)).2
    have hnodup := h.nodup
    rw [hfree] at hnodup
    rw [serve_of_cons s clientFd bytes hfree]
    cases hparse : (parse (store s.mem base bytes) base bytes.length (.unset clientFd)).1 with
    | false =>
      simp only [hparse, Bool.false_eq_true, if_false]
      exact advances_of_agree rfl ⟨h.contents, hnodup⟩ rfl hagree rfl rfl
    | true =>
      simp only [hparse, if_true]
      by_cases hroom : s.coreConduit.contents.length + 1 = size
      · rw [s.coreConduit.push_of_full _ hroom, if_neg Bool.false_ne_true]
        exact advances_of_agree rfl ⟨h.contents, hnodup⟩ rfl hagree rfl rfl
      · obtain ⟨hpushed, hcontents⟩ := s.coreConduit.push_of_room (some cell) hroom
        rw [if_pos hpushed]
        refine push_advances h rfl hfree rfl rfl hcontents hagree ?_
        simp only [Gateway.denotes, Function.update_self, parse_connectionId]
        rw [message_eq_messageOf rfl hparse]
        rfl

theorem store_nil (mem : ℕ → UInt8) (base : ℕ) : store mem base [] = mem := by
  funext a
  exact if_neg fun h => absurd h.2 (Nat.not_lt.mpr h.1)

theorem iterate_advances {s : Gateway size} (h : s.Owned) (client : Option (ℕ × List UInt8)) :
    Advances s (s.memAfter base (.iterate client)) (s.iterate base client).1
      (s.iterate base client).2 := by
  match client with
  | none => exact advances_of_agree rfl h rfl (fun _ _ => rfl) rfl rfl
  | some (clientFd, bytes) =>
    by_cases hnil : bytes = []
    · subst hnil
      exact advances_of_agree (store_nil s.mem base).symm h rfl (fun _ _ => rfl) rfl rfl
    · simp only [Gateway.iterate, if_neg hnil]
      exact serve_advances h clientFd bytes

theorem pop_advances {s : Gateway size} (h : s.Owned) : Advances s s.mem s.pop.1 s.pop.2 := by
  have hcontents := h.contents
  cases hqueued : s.queued with
  | nil =>
    rw [hqueued, List.map_nil] at hcontents
    have hpop : s.pop = (s, .nothing) := by
      rw [Gateway.pop, s.coreConduit.pop_of_empty () hcontents]
      rfl
    rw [hpop]
    exact advances_of_agree rfl h rfl (fun _ _ => rfl) rfl rfl
  | cons cell q =>
    rw [hqueued, List.map_cons] at hcontents
    obtain ⟨hptr, hrest⟩ := s.coreConduit.pop_of_cons () hcontents
    have hpop : s.pop =
        ({ s with coreConduit := (s.coreConduit.pop ()).1, held := cell :: s.held },
          .popped (s.events cell).connectionId ((s.events cell).message s.mem)) := by
      simp only [Gateway.pop, hptr]
    have hq : s.pop.1.queued = q := by
      rw [hpop, Gateway.queued, hrest]
      simp
    refine ⟨⟨?_, ?_⟩, ?_⟩
    · rw [hq, hpop, hrest]
    · have hnodup := h.nodup
      rw [hqueued] at hnodup
      rw [hq, hpop]
      refine (List.Perm.nodup_iff (List.Perm.append_left _ ?_)).mpr hnodup
      exact List.perm_middle
    · rw [Gateway.pending, hq, hqueued, hpop, List.map_cons]
      simp [servedOf, sentOf, Gateway.denotes]

/-- A cell that the Core gives back goes to the front of the free cells. -/
theorem deallocate_perm {s : Gateway size} {cell : ℕ} (hheld : cell ∈ s.held) :
    (s.free ++ (s.queued ++ s.held)).Perm
      (cell :: (s.free ++ (s.queued ++ s.held.erase cell))) := by
  have hperm : (s.queued ++ s.held).Perm (cell :: (s.queued ++ s.held.erase cell)) :=
    ((List.perm_cons_erase hheld).append_left s.queued).trans List.perm_middle
  exact (hperm.append_left s.free).trans List.perm_middle

theorem deallocate_advances {s : Gateway size} (h : s.Owned) {cell : ℕ} (hheld : cell ∈ s.held) :
    Advances s s.mem { s.deallocate cell with held := s.held.erase cell } (.returned cell) := by
  refine advances_of_agree rfl ⟨h.contents, ?_⟩ rfl (fun _ _ => rfl) rfl rfl
  exact (deallocate_perm hheld).nodup_iff.mp h.nodup

theorem step_advances {s t : Gateway size} {a : Action} {e : Outcome} (h : s.Owned)
    (hstep : gatewayStep base s a = some (t, e)) : Advances s (s.memAfter base a) t e := by
  cases a with
  | iterate client =>
    simp only [gatewayStep] at hstep
    split_ifs at hstep
    obtain ⟨rfl, rfl⟩ := Prod.mk.inj (Option.some.inj hstep)
    exact iterate_advances h client
  | pop =>
    obtain ⟨rfl, rfl⟩ := Prod.mk.inj (Option.some.inj hstep)
    exact pop_advances h
  | deallocate cell =>
    simp only [gatewayStep] at hstep
    split_ifs at hstep with hheld
    obtain ⟨rfl, rfl⟩ := Prod.mk.inj (Option.some.inj hstep)
    exact deallocate_advances h hheld
  | stop =>
    obtain ⟨rfl, rfl⟩ := Prod.mk.inj (Option.some.inj hstep)
    exact advances_of_agree rfl ⟨h.contents, h.nodup⟩ rfl (fun _ _ => rfl) rfl rfl

/-! ## Runs -/

/-- A step keeps all events intact exactly when it leaves the queued ones undisturbed. -/
theorem intact_step_iff {es : List Outcome} {s t : Gateway size} {a : Action} {e : Outcome}
    (h : Intact es s) (hadv : Advances s (s.memAfter base a) t e) :
    Intact (es ++ [e]) t ↔ Undisturbed base s a := by
  unfold Intact served sent at h ⊢
  rw [filterMap_snoc, filterMap_snoc, List.append_assoc, hadv.trace, ← List.append_assoc,
    List.append_left_inj, ← h, List.append_right_inj, undisturbed_iff]

theorem init_owned (hsize : 0 < size) (cells : ℕ) (mem : ℕ → UInt8)
    (events : ℕ → HttpRequestEvent) (ring : ℕ → Option ℕ) :
    (gatewayInit hsize cells mem events ring).Owned := by
  have hempty : (gatewayInit hsize cells mem events ring).queued = [] := by
    simp [Gateway.queued, gatewayInit]
  refine ⟨?_, ?_⟩
  · rw [hempty]
    exact Conduit.contents_fresh hsize ring
  · rw [hempty]
    simpa [gatewayInit] using List.nodup_range

theorem init_intact (hsize : 0 < size) (cells : ℕ) (mem : ℕ → UInt8)
    (events : ℕ → HttpRequestEvent) (ring : ℕ → Option ℕ) :
    Intact [] (gatewayInit hsize cells mem events ring) := by
  simp [Intact, Gateway.pending, Gateway.queued, gatewayInit, served, sent]

theorem run_intact {hsize : 0 < size} {cells : ℕ} {mem : ℕ → UInt8}
    {events : ℕ → HttpRequestEvent} {ring : ℕ → Option ℕ} {es : List Outcome} {s : Gateway size}
    (h : Exec (gatewayStep base) (Undisturbed base) (gatewayInit hsize cells mem events ring)
      es s) : s.Owned ∧ Intact es s := by
  refine h.invariant (fun es s => s.Owned ∧ Intact es s)
    ⟨init_owned hsize cells mem events ring, init_intact hsize cells mem events ring⟩ ?_
  intro es s a t e hs hok hstep
  have hadv := step_advances hs.1 hstep
  exact ⟨hadv.owned, (intact_step_iff hs.2 hadv).mpr hok⟩

/-- The conduit is empty whenever `recv` writes the buffer. -/
def DrainedFirst (s : Gateway size) : Action → Prop
  | .iterate (some _) => s.queued = []
  | _ => True

theorem undisturbed_of_drained {s : Gateway size} {a : Action} (h : DrainedFirst s a) :
    Undisturbed base s a := by
  intro cell hcell
  match a, h with
  | .iterate (some _), hempty =>
    rw [show s.queued = [] from hempty] at hcell
    cases hcell
  | .iterate none, _ | .pop, _ | .deallocate _, _ | .stop, _ => rfl

/-- A Core that empties the conduit before every reception reads each client's own bytes. -/
theorem served_prefix_of_drained {hsize : 0 < size} {cells : ℕ} {mem : ℕ → UInt8}
    {events : ℕ → HttpRequestEvent} {ring : ℕ → Option ℕ} {es : List Outcome} {s : Gateway size}
    (h : Exec (gatewayStep base) DrainedFirst (gatewayInit hsize cells mem events ring) es s) :
    served es <+: sent es :=
  ⟨s.pending, (run_intact (h.mono fun _ _ => undisturbed_of_drained)).2⟩

/-- In every run whose receptions all leave the queued events undisturbed, the Core reads from the
events it pops what their clients sent, in order; and from every state of such a run, the next step
keeps all events intact if and only if it is again such a step. -/
theorem gateway_isolation (hsize : 0 < size) (cells : ℕ) (mem : ℕ → UInt8)
    (events : ℕ → HttpRequestEvent) (ring : ℕ → Option ℕ) {es : List Outcome} {s : Gateway size}
    (h : Exec (gatewayStep base) (Undisturbed base) (gatewayInit hsize cells mem events ring)
      es s) :
    served es <+: sent es ∧ Intact es s ∧
      ∀ a t e, gatewayStep base s a = some (t, e) →
        (Intact (es ++ [e]) t ↔ Undisturbed base s a) := by
  obtain ⟨howned, hintact⟩ := run_intact h
  refine ⟨⟨s.pending, hintact⟩, hintact, fun a t e hstep => ?_⟩
  exact intact_step_iff hintact (step_advances howned hstep)

/-- A gateway with four slots in its conduit and two events in its pool. -/
def sampleGateway : Gateway 4 :=
  gatewayInit (by decide) 2 (fun _ => 0) (fun _ => .unset 0) (fun _ => none)

/-- Two clients, the Core popping the first event before the second reception. -/
theorem gateway_isolation_pop_between :
    ∃ (es : List Outcome) (s : Gateway 4),
      Exec (gatewayStep 100) (Undisturbed 100) sampleGateway es s ∧
      served es <+: sent es ∧
      served es = [(5, ⟨ascii "G", ascii "/a", [], []⟩), (6, ⟨ascii "P", ascii "/b", [], []⟩)] := by
  have h := exec_of_run (show run (gatewayStep 100) (Undisturbed 100) sampleGateway
    [.iterate (some (5, ascii "G /a H\n\n")), .pop, .iterate (some (6, ascii "P /b H\n\n")), .pop] =
      some (_, _) from rfl)
  exact ⟨_, _, h, (gateway_isolation _ _ _ _ _ h).1, by decide⟩

/-- Two clients whose requests are both received before the Core pops: the event of the first
client then says what the second one sent. -/
theorem second_reception_overwrites :
    ∃ (es : List Outcome) (s : Gateway 4),
      Exec (gatewayStep 100) (fun _ _ => True) sampleGateway es s ∧
      served es = [(5, ⟨ascii "P", ascii "/b", [], []⟩)] ∧
      sent es = [(5, ⟨ascii "G", ascii "/a", [], []⟩), (6, ⟨ascii "P", ascii "/b", [], []⟩)] ∧
      ¬ served es <+: sent es := by
  have h := exec_of_run (show run (gatewayStep 100) (fun _ _ => True) sampleGateway
    [.iterate (some (5, ascii "G /a H\n\n")), .iterate (some (6, ascii "P /b H\n\n")), .pop] =
      some (_, _) from rfl)
  exact ⟨_, _, h, by decide, by decide, by decide⟩

end ConduitRuntime.Http
