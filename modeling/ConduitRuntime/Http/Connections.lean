import ConduitRuntime.Http.Isolation

/-! What the gateway does with its connections and its cells, whatever the clients send and however
the Core is scheduled: the answer each connection gets, the order in which connections reach the
Core, and where the cells are. Unlike the messages, the connection ids do not depend on the buffer.
-/
namespace ConduitRuntime.Http
open ConduitRuntime.Ring Execution
set_option autoImplicit false

variable {size base : ℕ}

def queuedIdOf (e : Outcome) : Option ℕ := (sentOf e).map Prod.fst

def poppedIdOf (e : Outcome) : Option ℕ := (servedOf e).map Prod.fst

/-- The connections whose requests were queued, and those whose events the Core popped. -/
def queuedIds (es : List Outcome) : List ℕ := es.filterMap queuedIdOf

def poppedIds (es : List Outcome) : List ℕ := es.filterMap poppedIdOf

namespace Gateway

def queuedConnections (s : Gateway size) : List ℕ :=
  s.queued.map fun cell => (s.events cell).connectionId

/-- Where the cells are: free, in the conduit, or with the Core. -/
def cells (s : Gateway size) : List ℕ := s.free ++ (s.queued ++ s.held)

end Gateway

/-- How a connection is answered. A request is well formed if the grammar has it; the conduit holds
one event less than it has slots. -/
inductive Answer (s : Gateway size) (clientFd : ℕ) (bytes : List UInt8) : Outcome → Prop
  | closed (hnone : bytes = []) : Answer s clientFd bytes (.closed clientFd)
  | exhausted (hsome : bytes ≠ []) (hfree : s.free = []) :
      Answer s clientFd bytes (send503 clientFd)
  | malformed (hsome : bytes ≠ []) (hfree : s.free ≠ []) (hbad : ¬ ∃ r : Request, r.bytes = bytes) :
      Answer s clientFd bytes (send400 clientFd)
  | overloaded (hsome : bytes ≠ []) (hfree : s.free ≠ []) (hgood : ∃ r : Request, r.bytes = bytes)
      (hfull : s.queued.length + 1 = size) : Answer s clientFd bytes (send503 clientFd)
  | queued (hsome : bytes ≠ []) (hfree : s.free ≠ []) (hgood : ∃ r : Request, r.bytes = bytes)
      (hroom : s.queued.length + 1 ≠ size) : Answer s clientFd bytes (.queued clientFd bytes)

/-! ## One step -/

theorem parse_store_iff (base : ℕ) (mem : ℕ → UInt8) (bytes : List UInt8) (clientFd : ℕ) :
    (parse (store mem base bytes) base bytes.length (.unset clientFd)).1 = true ↔
      ∃ r : Request, r.bytes = bytes := by
  have hslice := slice_store mem base bytes
  constructor
  · intro h
    obtain ⟨r, hr⟩ := request_of_accept rfl h
    exact ⟨r, hr.trans hslice⟩
  · rintro ⟨r, hr⟩
    exact (parse_request r (hslice.trans hr.symm) rfl).1

theorem Gateway.Owned.length_contents {s : Gateway size} (h : s.Owned) :
    s.coreConduit.contents.length = s.queued.length := by
  rw [h.contents, List.length_map]

theorem serve_answer {s : Gateway size} (h : s.Owned) (clientFd : ℕ) {bytes : List UInt8}
    (hsome : bytes ≠ []) : Answer s clientFd bytes (s.serve base clientFd bytes).2 := by
  cases hfree : s.free with
  | nil =>
    have hserve : (s.serve base clientFd bytes).2 = send503 clientFd := by
      simp only [Gateway.serve, Gateway.allocate, hfree]
    rw [hserve]
    exact .exhausted hsome hfree
  | cons cell free =>
    have hne : s.free ≠ [] := by simp [hfree]
    have hgrammar := parse_store_iff base s.mem bytes clientFd
    rw [serve_of_cons s clientFd bytes hfree]
    cases hparse : (parse (store s.mem base bytes) base bytes.length (.unset clientFd)).1 with
    | false =>
      simp only [hparse, Bool.false_eq_true, if_false]
      rw [hparse] at hgrammar
      exact .malformed hsome hne fun hgood => Bool.false_ne_true (hgrammar.mpr hgood)
    | true =>
      have hgood := hgrammar.mp hparse
      simp only [hparse, if_true]
      by_cases hroom : s.coreConduit.contents.length + 1 = size
      · rw [s.coreConduit.push_of_full _ hroom, if_neg Bool.false_ne_true]
        exact .overloaded hsome hne hgood (h.length_contents ▸ hroom)
      · obtain ⟨hpushed, -⟩ := s.coreConduit.push_of_room (some cell) hroom
        rw [if_pos hpushed]
        exact .queued hsome hne hgood (h.length_contents ▸ hroom)

theorem iterate_answer {s t : Gateway size} (h : s.Owned) {clientFd : ℕ} {bytes : List UInt8}
    {e : Outcome} (hs : gatewayStep base s (.iterate (some (clientFd, bytes))) = some (t, e)) :
    Answer s clientFd bytes e := by
  simp only [gatewayStep, Gateway.iterate] at hs
  split_ifs at hs with hrun hnil
  · cases hs
    exact .closed hnil
  · obtain ⟨rfl, rfl⟩ := Prod.mk.inj (Option.some.inj hs)
    exact serve_answer h clientFd hnil

/-- Whatever becomes of the buffer, the connection ids move as the events do. -/
theorem Advances.connections {s t : Gateway size} {mem : ℕ → UInt8} {e : Outcome}
    (h : Advances s mem t e) :
    (poppedIdOf e).toList ++ t.queuedConnections =
      s.queuedConnections ++ (queuedIdOf e).toList := by
  have htrace := congrArg (List.map Prod.fst) h.trace
  rw [List.map_append, List.map_append, Gateway.pending, List.map_map, List.map_map] at htrace
  rw [poppedIdOf, queuedIdOf, Option.toList_map, Option.toList_map]
  exact htrace

theorem serve_cells (s : Gateway size) (clientFd : ℕ) (bytes : List UInt8) :
    (s.serve base clientFd bytes).1.cells.Perm s.cells := by
  cases hfree : s.free with
  | nil =>
    have hserve : (s.serve base clientFd bytes).1 = { s with mem := store s.mem base bytes } := by
      simp only [Gateway.serve, Gateway.allocate, hfree]
    rw [hserve]
    exact List.Perm.refl _
  | cons cell free =>
    have hsame : s.cells = cell :: free ++ (s.queued ++ s.held) := by
      rw [Gateway.cells, hfree]
    rw [serve_of_cons s clientFd bytes hfree, hsame]
    cases hparse : (parse (store s.mem base bytes) base bytes.length (.unset clientFd)).1 with
    | false =>
      simp only [hparse, Bool.false_eq_true, if_false]
      exact List.Perm.refl _
    | true =>
      simp only [hparse, if_true]
      by_cases hroom : s.coreConduit.contents.length + 1 = size
      · rw [s.coreConduit.push_of_full _ hroom, if_neg Bool.false_ne_true]
        exact List.Perm.refl _
      · obtain ⟨hpushed, hcontents⟩ := s.coreConduit.push_of_room (some cell) hroom
        rw [if_pos hpushed]
        have hqueued : (s.coreConduit.push (some cell)).1.contents.filterMap id =
            s.queued ++ [cell] := queued_push hcontents
        simp only [Gateway.cells, Gateway.queued, hqueued]
        refine List.Perm.trans ?_ List.perm_middle
        rw [List.append_assoc, List.singleton_append]
        exact List.perm_middle.append_left free

theorem pop_cells {s : Gateway size} (h : s.Owned) : s.pop.1.cells.Perm s.cells := by
  have hcontents := h.contents
  cases hqueued : s.queued with
  | nil =>
    rw [hqueued, List.map_nil] at hcontents
    have hpop : s.pop = (s, .nothing) := by
      rw [Gateway.pop, s.coreConduit.pop_of_empty () hcontents]
      rfl
    rw [hpop]
  | cons cell q =>
    rw [hqueued, List.map_cons] at hcontents
    obtain ⟨hptr, hrest⟩ := s.coreConduit.pop_of_cons () hcontents
    have hq : (s.coreConduit.pop ()).1.contents.filterMap id = q := by
      rw [hrest]
      simp
    simp only [Gateway.pop, hptr, Gateway.cells, hqueued]
    rw [Gateway.queued, hq]
    exact List.perm_middle.append_left s.free

theorem step_cells {s t : Gateway size} {a : Action} {e : Outcome} (h : s.Owned)
    (hs : gatewayStep base s a = some (t, e)) : t.cells.Perm s.cells := by
  cases a with
  | iterate client =>
    simp only [gatewayStep] at hs
    split_ifs at hs
    obtain ⟨rfl, rfl⟩ := Prod.mk.inj (Option.some.inj hs)
    rcases client with - | ⟨clientFd, bytes⟩
    · exact List.Perm.refl _
    · simp only
      split_ifs
      · exact List.Perm.refl _
      · exact serve_cells s clientFd bytes
  | pop =>
    obtain ⟨rfl, rfl⟩ := Prod.mk.inj (Option.some.inj hs)
    exact pop_cells h
  | deallocate cell =>
    simp only [gatewayStep] at hs
    split_ifs at hs with hheld
    obtain ⟨rfl, rfl⟩ := Prod.mk.inj (Option.some.inj hs)
    exact (deallocate_perm hheld).symm
  | stop =>
    obtain ⟨rfl, rfl⟩ := Prod.mk.inj (Option.some.inj hs)
    exact List.Perm.refl _

/-! ## Runs -/

theorem run_connections {hsize : 0 < size} {cells : ℕ} {mem : ℕ → UInt8}
    {events : ℕ → HttpRequestEvent} {ring : ℕ → Option ℕ} {es : List Outcome} {s : Gateway size}
    (h : Exec (gatewayStep base) (fun _ _ => True) (gatewayInit hsize cells mem events ring) es s) :
    s.Owned ∧ poppedIds es ++ s.queuedConnections = queuedIds es ∧
      s.cells.Perm (List.range cells) := by
  refine h.invariant (fun es s => s.Owned ∧ poppedIds es ++ s.queuedConnections = queuedIds es ∧
    s.cells.Perm (List.range cells)) ?_ ?_
  · have hqueued : (gatewayInit hsize cells mem events ring).queued = [] := by
      simp [Gateway.queued, gatewayInit]
    refine ⟨init_owned hsize cells mem events ring, ?_, ?_⟩
    · rw [Gateway.queuedConnections, hqueued]
      rfl
    · rw [Gateway.cells, hqueued]
      simp [gatewayInit]
  · rintro es s a t e ⟨howned, hids, hcells⟩ _ hs
    have hadv := step_advances howned hs
    refine ⟨hadv.owned, ?_, (step_cells howned hs).trans hcells⟩
    rw [poppedIds, queuedIds, filterMap_snoc, filterMap_snoc, List.append_assoc, hadv.connections,
      ← List.append_assoc]
    exact congrArg (· ++ (queuedIdOf e).toList) hids

/-- For every sequence of connections and every schedule of the Core, also when receptions overwrite
what queued events say: the Core gets the connections whose requests were queued, each once and in
order; every cell is free, in the conduit or with the Core; and each connection is closed, refused
with 503, refused with 400 or queued, as `Answer` says. -/
theorem gateway_connections (hsize : 0 < size) (cells : ℕ) (mem : ℕ → UInt8)
    (events : ℕ → HttpRequestEvent) (ring : ℕ → Option ℕ) (es : List Outcome) (s : Gateway size)
    (h : Exec (gatewayStep base) (fun _ _ => True) (gatewayInit hsize cells mem events ring) es s) :
    poppedIds es ++ s.queuedConnections = queuedIds es ∧ s.cells.Perm (List.range cells) ∧
      ∀ clientFd bytes t e, gatewayStep base s (.iterate (some (clientFd, bytes))) = some (t, e) →
        Answer s clientFd bytes e := by
  obtain ⟨howned, hids, hcells⟩ := run_connections h
  refine ⟨hids, hcells, ?_⟩
  intro clientFd bytes t e hs
  exact iterate_answer howned hs

/-- Three well-formed requests over a pool of two events: the third finds it exhausted. -/
theorem gateway_connections_exhausted :
    ∃ (es : List Outcome) (s : Gateway 4),
      Exec (gatewayStep 100) (fun _ _ => True) sampleGateway es s ∧
      s.free = [] ∧ queuedIds es = [5, 6] ∧ poppedIds es ++ s.queuedConnections = [5, 6] ∧
      s.cells.Perm (List.range 2) ∧
      ∃ t, gatewayStep 100 s (.iterate (some (7, ascii "G /c H\n\n"))) = some (t, send503 7) := by
  have h := exec_of_run (show run (gatewayStep 100) (fun _ _ => True) sampleGateway
    [.iterate (some (5, ascii "G /a H\n\n")), .iterate (some (6, ascii "P /b H\n\n")), .pop] =
      some (_, _) from rfl)
  obtain ⟨hids, hcells, -⟩ := gateway_connections _ _ _ _ _ _ _ h
  exact ⟨_, _, h, rfl, rfl, hids, hcells, _, rfl⟩

end ConduitRuntime.Http
