import ConduitRuntime.Supplemental.MetricsPage
import ConduitRuntime.Supplemental.Telemetry

/-! `prometheus_exporter::run` beside the wrapped nodes: for every client it reads the counters one
after the other and sends the page. What the sockets answer is part of the schedule, and `send` may
take only the beginning of a response. -/
namespace ConduitRuntime.Supplemental
open Execution Tally
set_option autoImplicit false
set_option maxRecDepth 4000

/-- Where the exporter is inside `run`; `read` carries the samples that are in the payload. -/
inductive ExporterPc
  | outside
  | setUp
  | test
  | accept
  | read (samples : List (List Char × BitVec 64))

/-- `counters` are the registered names with their wrappers. -/
structure Exporter (ι : Type) where
  processedEvents : ι → BitVec 64
  counters : List (List Char × ι)
  isRunning : Bool
  pc : ExporterPc

/-- `exporter ok sent` is the next step of `run`: `ok` tells whether `socket`, `bind` and `listen`,
or `accept`, succeed, and `sent` how much `send` takes. -/
inductive ExporterAction (ι : Type)
  | on (i : ι)
  | callRun
  | exporter (ok : Bool) (sent : ℕ)
  | stop

inductive ExporterNote (ι : Type)
  | silent
  | counted (i : ι)
  | accepted
  | responded (response : List Char) (sent : List Char)
  deriving DecidableEq

section Model
variable {ι : Type} [DecidableEq ι]

def exporterRun (s : Exporter ι) (ok : Bool) (sent : ℕ) : Option (Exporter ι × ExporterNote ι) :=
  match s.pc with
  | .outside => none
  | .setUp =>
    if ok then some ({ s with isRunning := true, pc := .test }, .silent)
    else some ({ s with pc := .outside }, .silent)
  | .test => some ({ s with pc := if s.isRunning then .accept else .outside }, .silent)
  | .accept =>
    if ok then some ({ s with pc := .read [] }, .accepted)
    else some ({ s with pc := .test }, .silent)
  | .read samples =>
    match s.counters[samples.length]? with
    | some (name, i) =>
      some ({ s with pc := .read (samples ++ [(name, s.processedEvents i)]) }, .silent)
    | none =>
      let response := httpResponse (payload samples)
      some ({ s with pc := .test }, .responded response (response.take sent))

def exporterStep (s : Exporter ι) : ExporterAction ι → Option (Exporter ι × ExporterNote ι)
  | .on i =>
    some ({ s with processedEvents :=
      Function.update s.processedEvents i (s.processedEvents i + 1) }, .counted i)
  | .callRun =>
    match s.pc with
    | .outside => some ({ s with pc := .setUp }, .silent)
    | _ => none
  | .exporter ok sent => exporterRun s ok sent
  | .stop => some ({ s with isRunning := false }, .silent)

def exporterInit (counters : List (List Char × ι)) : Exporter ι where
  processedEvents _ := 0
  counters := counters
  isRunning := false
  pc := .outside

/-! ## Runs -/

/-- The events that the wrapper `i` has seen. -/
def eventsSeen (es : List (ExporterNote ι)) : ι → ℕ := tally .counted es

/-- The sample of a counter, with a value that the counter had between `pre` and `es`. -/
def Fresh (pre es : List (ExporterNote ι)) (c : List Char × ι) (sample : List Char × ℕ) : Prop :=
  sample.1 = c.1 ∧ eventsSeen pre c.2 ≤ sample.2 ∧ sample.2 ≤ eventsSeen es c.2

theorem Fresh.later {pre es : List (ExporterNote ι)} {c : List Char × ι} {sample : List Char × ℕ}
    (h : Fresh pre es c sample) (e : ExporterNote ι) : Fresh pre (es ++ [e]) c sample :=
  ⟨h.1, h.2.1, h.2.2.trans (tally_append_le _ es [e] c.2)⟩

/-- What is in the payload while the page for the last client is made. -/
structure PageInv (counters : List (List Char × ι)) (es : List (ExporterNote ι))
    (samples : List (List Char × BitVec 64)) (pre mid : List (ExporterNote ι)) : Prop where
  split : es = pre ++ .accepted :: mid
  once : .accepted ∉ mid
  fresh : List.Forall₂ (Fresh pre es) (counters.take samples.length)
    (samples.map fun s => (s.1, s.2.toNat))

structure ExporterInv (counters : List (List Char × ι)) (es : List (ExporterNote ι))
    (s : Exporter ι) : Prop where
  counters_eq : s.counters = counters
  values : Shows .counted es s.processedEvents
  page : (∀ c ∈ counters, eventsSeen es c.2 < 2 ^ 64) →
    ∀ samples, s.pc = .read samples → ∃ pre mid, PageInv counters es samples pre mid

section Runs
variable {counters : List (List Char × ι)} {es : List (ExporterNote ι)} {s t : Exporter ι}
  {e : ExporterNote ι}

theorem PageInv.snoc {samples : List (List Char × BitVec 64)} {pre mid : List (ExporterNote ι)}
    (h : PageInv counters es samples pre mid) (he : e ≠ .accepted) :
    PageInv counters (es ++ [e]) samples pre (mid ++ [e]) := by
  refine ⟨?_, ?_, h.fresh.imp fun _ _ hf => hf.later e⟩
  · rw [h.split]
    simp
  · simpa [h.once] using Ne.symm he

theorem PageInv.read {samples : List (List Char × BitVec 64)} {pre mid : List (ExporterNote ι)}
    (h : PageInv counters es samples pre mid) {name : List Char} {i : ι}
    (hi : counters[samples.length]? = some (name, i)) (hfits : eventsSeen es i < 2 ^ 64) :
    PageInv counters es (samples ++ [(name, BitVec.ofNat 64 (eventsSeen es i))]) pre mid := by
  have hvalue : (BitVec.ofNat 64 (eventsSeen es i)).toNat = eventsSeen es i := by
    rw [BitVec.toNat_ofNat, Nat.mod_eq_of_lt hfits]
  have hmono : eventsSeen pre i ≤ eventsSeen es i := h.split ▸ tally_append_le _ pre _ i
  refine ⟨h.split, h.once, ?_⟩
  rw [List.length_append, List.length_singleton, List.take_add_one, hi, List.map_append]
  refine List.rel_append h.fresh ?_
  refine List.Forall₂.cons ⟨rfl, ?_, ?_⟩ .nil
  · exact hmono.trans hvalue.ge
  · exact hvalue.le

omit [DecidableEq ι] in
theorem forall₂_metricNames {R : List Char × ι → List Char × ℕ → Prop}
    (hR : ∀ c sample, R c sample → sample.1 = c.1) {samples : List (List Char × BitVec 64)}
    (h : List.Forall₂ R counters (samples.map fun s => (s.1, s.2.toNat)))
    (hnames : ∀ c ∈ counters, MetricName c.1) : ∀ s ∈ samples, MetricName s.1 := by
  induction samples generalizing counters with
  | nil =>
    intro s hs
    cases hs
  | cons s samples ih =>
    cases h with
    | cons hs hrest =>
      rename_i c cs
      intro u hu
      rcases List.mem_cons.mp hu with rfl | hu
      · rw [show u.1 = c.1 from hR _ _ hs]
        exact hnames c List.mem_cons_self
      · exact ih hrest (fun c hc => hnames c (List.mem_cons_of_mem _ hc)) u hu

/-- A step that is not one of the exporter between `accept` and `send`. -/
theorem ExporterInv.keep (h : ExporterInv counters es s) (hcounters : t.counters = s.counters)
    (hvalues : Shows .counted (es ++ [e]) t.processedEvents)
    (hpc : ∀ samples, t.pc = .read samples → s.pc = .read samples) (he : e ≠ .accepted) :
    ExporterInv counters (es ++ [e]) t := by
  refine ⟨hcounters.trans h.counters_eq, hvalues, ?_⟩
  intro hfits samples hread
  have hfits' : ∀ c ∈ counters, eventsSeen es c.2 < 2 ^ 64 := fun c hc =>
    (tally_append_le _ es [e] c.2).trans_lt (hfits c hc)
  obtain ⟨pre, mid, hpage⟩ := h.page hfits' samples (hpc samples hread)
  exact ⟨pre, _, hpage.snoc he⟩

theorem ExporterInv.run (h : ExporterInv counters es s) {ok : Bool} {sent : ℕ}
    (hs : exporterRun s ok sent = some (t, e)) : ExporterInv counters (es ++ [e]) t := by
  unfold exporterRun at hs
  split at hs
  · cases hs
  · split_ifs at hs <;> cases hs <;>
      exact h.keep rfl (h.values.other (by simp)) (by simp) (by simp)
  · cases hs
    refine h.keep rfl (h.values.other (by simp)) ?_ (by simp)
    intro samples hread
    by_cases hrun : s.isRunning = true <;> simp [hrun] at hread
  · split_ifs at hs
    · cases hs
      refine ⟨h.counters_eq, h.values.other (by simp), ?_⟩
      intro _ samples hread
      cases hread
      exact ⟨es, [], rfl, by simp, List.Forall₂.nil⟩
    · cases hs
      exact h.keep rfl (h.values.other (by simp)) (by simp) (by simp)
  · rename_i samples hpc
    split at hs
    · rename_i name i hi
      cases hs
      refine ⟨h.counters_eq, h.values.other (by simp), ?_⟩
      intro hfits samples' hread
      cases hread
      have hfits' : ∀ c ∈ counters, eventsSeen es c.2 < 2 ^ 64 := fun c hc =>
        (tally_append_le _ es [_] c.2).trans_lt (hfits c hc)
      obtain ⟨pre, mid, hpage⟩ := h.page hfits' samples hpc
      rw [h.counters_eq] at hi
      have hread := hpage.read hi (hfits' _ (List.mem_of_getElem? hi))
      rw [← show s.processedEvents i = BitVec.ofNat 64 (eventsSeen es i) from h.values i] at hread
      exact ⟨pre, _, hread.snoc (by simp)⟩
    · cases hs
      exact h.keep rfl (h.values.other (by simp)) (by simp) (by simp)

theorem ExporterInv.step (h : ExporterInv counters es s) {a : ExporterAction ι}
    (hs : exporterStep s a = some (t, e)) : ExporterInv counters (es ++ [e]) t := by
  cases a with
  | on i =>
    cases hs
    exact h.keep rfl (h.values.increment (fun _ _ he => by cases he; rfl) i) (fun _ hpc => hpc)
      (by simp)
  | callRun =>
    simp only [exporterStep] at hs
    split at hs
    · cases hs
      exact h.keep rfl (h.values.other (by simp)) (by simp) (by simp)
    · cases hs
  | exporter ok sent => exact h.run hs
  | stop =>
    cases hs
    exact h.keep rfl (h.values.other (by simp)) (fun _ hpc => hpc) (by simp)

/-- While the nodes go on counting: a client that gets a whole response finds in it, for every
registered counter in order, its name with a value that the counter had between the client's
`accept` and the response; and a client that gets only a part of it reads nothing. -/
theorem exporter_reports (counters : List (List Char × ι)) (hnames : ∀ c ∈ counters, MetricName c.1)
    (es : List (ExporterNote ι)) (s : Exporter ι)
    (h : Exec exporterStep (fun _ _ => True) (exporterInit counters) es s)
    (hfits : ∀ c ∈ counters, eventsSeen es c.2 < 2 ^ 64) (a : ExporterAction ι) (t : Exporter ι)
    (response sent : List Char) (hs : exporterStep s a = some (t, .responded response sent)) :
    ∃ pre mid page, es = pre ++ .accepted :: mid ∧ .accepted ∉ mid ∧
      readResponse sent = (if response.length ≤ sent.length then some page else none) ∧
      List.Forall₂ (Fresh pre es) counters (readPage page) := by
  have hi : ExporterInv counters es s := by
    refine h.invariant (fun es s => ExporterInv counters es s) ?_ ?_
    · refine ⟨rfl, shows_nil _, ?_⟩
      intro _ samples hread
      cases hread
    · intro es s a t e hi _ hs
      exact hi.step hs
  cases a with
  | on i => cases hs
  | callRun =>
    simp only [exporterStep] at hs
    split at hs <;> cases hs
  | stop => cases hs
  | exporter ok n =>
    simp only [exporterStep, exporterRun] at hs
    split at hs
    · cases hs
    · split_ifs at hs <;> cases hs
    · cases hs
    · split_ifs at hs <;> cases hs
    · rename_i samples hpc
      split at hs
      · cases hs
      · rename_i hend
        cases hs
        obtain ⟨pre, mid, hsplit, honce, hfresh⟩ := hi.page hfits samples hpc
        rw [hi.counters_eq] at hend
        rw [List.take_of_length_le (List.getElem?_eq_none_iff.mp hend)] at hfresh
        refine ⟨pre, mid, payload samples, hsplit, honce, ?_, ?_⟩
        · rw [readResponse_take, List.length_take]
          congr 1
          simp
        · rw [readPage_payload (forall₂_metricNames (fun _ _ hf => hf.1) hfresh hnames)]
          exact hfresh

/-- One counter; an event comes between `accept` and the response, which `send` takes as a whole. -/
theorem exporter_reports_one :
    ∃ (es : List (ExporterNote Unit)) (s t : Exporter Unit) (response : List Char),
      Exec exporterStep (fun _ _ => True) (exporterInit [("x".toList, ())]) es s ∧
      exporterStep s (.exporter true 500) = some (t, .responded response response) ∧
      response = httpResponse (payload [("x".toList, 1)]) ∧
      ∃ pre mid page, es = pre ++ .accepted :: mid ∧ .accepted ∉ mid ∧
        readResponse response = some page ∧
        List.Forall₂ (Fresh pre es) [("x".toList, ())] (readPage page) := by
  have hname : MetricName "x".toList := ⟨by decide, by decide, by decide, by decide⟩
  have h := exec_of_run (show run exporterStep (fun _ _ => True)
    (exporterInit [("x".toList, ())])
    [.callRun, .exporter true 0, .exporter true 0, .exporter true 0, .on (), .exporter true 0] =
      some (_, _) from rfl)
  obtain ⟨pre, mid, page, hsplit, honce, hread, hfresh⟩ := exporter_reports _ (by simpa using hname)
    _ _ h (by decide) (.exporter true 500) _ _ _ rfl
  rw [if_pos (by decide)] at hread
  exact ⟨_, _, _, _, h, rfl, rfl, pre, mid, page, hsplit, honce, hread, hfresh⟩

end Runs

end Model

end ConduitRuntime.Supplemental
