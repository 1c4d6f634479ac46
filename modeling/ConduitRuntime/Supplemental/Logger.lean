import Mathlib.Algebra.Order.Ring.Nat
import ConduitRuntime.Foundations.Execution
import ConduitRuntime.Foundations.Placeholders
import ConduitRuntime.Ring.EventPipe

/-! The logger: `logger_client::log` on one thread, `async_logger_node::run` on another, a domain
and a conduit between them, and `stop` at any time. The messages are registered before. The domain
and the conduit are parameters of the templates and of the model; an event that `push` does not take
goes out of scope. -/
namespace ConduitRuntime.Supplemental
open Execution Placeholders ConduitRuntime.Ring
set_option autoImplicit false

structure LogEvent where
  timestampNs : BitVec 64
  messageId : BitVec 16
  arg1 : BitVec 64
  arg2 : BitVec 64
  deriving DecidableEq

/-! ## Messages -/

/-- `std::to_string` of an unsigned number. -/
def stdToString (n : BitVec 64) : List Char := Nat.toDigits 10 n.toNat

/-- `register_message`: the strings after it, and the number for the caller. -/
def registerMessage (formatStrings : List (List Char)) (formatStr : List Char) :
    List (List Char) × BitVec 16 :=
  (formatStrings ++ [formatStr], BitVec.ofNat 16 ((formatStrings ++ [formatStr]).length - 1))

/-- Messages registered one after the other, with the numbers they got. -/
def registerAll : List (List Char) → List (List Char) → List (List Char) × List (BitVec 16)
  | formatStrings, [] => (formatStrings, [])
  | formatStrings, f :: fs =>
    let (formatStrings, id) := registerMessage formatStrings f
    let (formatStrings, ids) := registerAll formatStrings fs
    (formatStrings, id :: ids)

/-- The two searches and replacements of `run`. -/
def formatMessage (format : List Char) (ev : LogEvent) : List Char :=
  let msg := replaceFirst '{' '}' (stdToString ev.arg1) format
  replaceFirst '{' '}' (stdToString ev.arg2) msg

def outputLine (timestampNs : BitVec 64) (msg : List Char) : List Char :=
  "[LOG ".toList ++ stdToString timestampNs ++ "] ".toList ++ msg ++ "\n".toList

/-- What `run` prints for an event: nothing for a number that was not given out. -/
def printLine (formatStrings : List (List Char)) (ev : LogEvent) : Option (List Char) :=
  (formatStrings[ev.messageId.toNat]?).map fun format =>
    outputLine ev.timestampNs (formatMessage format ev)

/-! ## Threads -/

/-- Where the node is inside `run`; `print` has the popped event. -/
inductive LoggerPc (E : Type)
  | outside
  | setRunning
  | test
  | pop
  | print (ev : E) (event : LogEvent)

/-- `client` is the event of a `log` between its `make` and its `push`, with what `log` has put into
it, and `core` the state of domain and conduit. -/
structure LogSystem (P E : Type) where
  formatStrings : List (List Char)
  client : Option (E × LogEvent)
  isRunning : Bool
  pc : LoggerPc E
  core : P

inductive LogAction
  | log (event : LogEvent)
  | push
  | callRun
  | node
  | stop

/-- `logged event accepted` is the return of a `log`. -/
inductive LogNote
  | silent
  | logged (event : LogEvent) (accepted : Bool)
  | popped (event : LogEvent)
  | printed (line : Option (List Char))

def loggerStep {P E : Type} (pipe : EventPipe P E LogEvent) (s : LogSystem P E) :
    LogAction → Option (LogSystem P E × LogNote)
  | .log event =>
    match s.client with
    | some _ => none
    | none =>
      match pipe.make s.core with
      | (none, p) => some ({ s with core := p }, .logged event false)
      | (some ev, p) => some ({ s with core := p, client := some (ev, event) }, .silent)
  | .push =>
    match s.client with
    | none => none
    | some (ev, event) =>
      let (accepted, rest, p) := pipe.push s.core (some ev) event
      some ({ s with core := pipe.close p rest, client := none }, .logged event accepted)
  | .callRun =>
    match s.pc with
    | .outside => some ({ s with pc := .setRunning }, .silent)
    | _ => none
  | .stop => some ({ s with isRunning := false }, .silent)
  | .node =>
    match s.pc with
    | .outside => none
    | .setRunning => some ({ s with isRunning := true, pc := .test }, .silent)
    | .test => some ({ s with pc := if s.isRunning then .pop else .outside }, .silent)
    | .pop =>
      match pipe.pop s.core with
      | (none, p) => some ({ s with core := p, pc := .test }, .silent)
      | (some (ev, event), p) => some ({ s with core := p, pc := .print ev event }, .popped event)
    | .print ev event =>
      some ({ s with core := pipe.drop s.core ev, pc := .test },
        .printed (printLine s.formatStrings event))

def loggerInit {P E : Type} (messages : List (List Char)) (p : P) : LogSystem P E where
  formatStrings := (registerAll [] messages).1
  client := none
  isRunning := false
  pc := .outside
  core := p

/-! ## What a run shows -/

def LogNote.accepted? : LogNote → Option LogEvent
  | .logged ev true => some ev
  | _ => none

def LogNote.popped? : LogNote → Option LogEvent
  | .popped ev => some ev
  | _ => none

def LogNote.line? : LogNote → Option (List Char)
  | .printed line => line
  | _ => none

def acceptedLogs (es : List LogNote) : List LogEvent := es.filterMap LogNote.accepted?

def poppedLogs (es : List LogNote) : List LogEvent := es.filterMap LogNote.popped?

def printedLines (es : List LogNote) : List (List Char) := es.filterMap LogNote.line?

section Trace
variable (es : List LogNote) (e : LogNote)

theorem acceptedLogs_snoc : acceptedLogs (es ++ [e]) = acceptedLogs es ++ e.accepted?.toList :=
  filterMap_snoc _ es e

theorem poppedLogs_snoc : poppedLogs (es ++ [e]) = poppedLogs es ++ e.popped?.toList :=
  filterMap_snoc _ es e

theorem printedLines_snoc : printedLines (es ++ [e]) = printedLines es ++ e.line?.toList :=
  filterMap_snoc _ es e

end Trace

def LoggerPc.inHand {E : Type} : LoggerPc E → List LogEvent
  | .print _ event => [event]
  | _ => []

def LoggerPc.event {E : Type} : LoggerPc E → Option E
  | .print ev _ => some ev
  | _ => none

/-- The events that the two threads have. -/
def LogSystem.handles {P E : Type} (s : LogSystem P E) : List E :=
  (s.client.map Prod.fst).toList ++ s.pc.event.toList

/-! ## Formatting -/

theorem stdToString_inert (n : BitVec 64) : Inert '{' '}' (stdToString n) := by
  have hdigit : ∀ ch ∈ stdToString n, ch.isDigit = true := fun ch hch =>
    Nat.isDigit_of_mem_toDigits (by decide) (by decide) hch
  refine ⟨Nat.toDigits_ne_nil, ?_, ?_⟩
  · intro hmem
    exact absurd (hdigit _ hmem) (by decide)
  · intro hmem
    exact absurd (hdigit _ hmem) (by decide)

/-- The second search never finds the first argument's digits. -/
theorem formatMessage_eq (format : List Char) (ev : LogEvent) :
    formatMessage format ev = fill '{' '}' format [stdToString ev.arg1, stdToString ev.arg2] := by
  have hinert : ∀ t ∈ [stdToString ev.arg1, stdToString ev.arg2], Inert '{' '}' t := by
    intro t ht
    rcases List.mem_pair.mp ht with rfl | rfl
    · exact stdToString_inert _
    · exact stdToString_inert _
  exact foldl_replaceFirst hinert format

theorem registerAll_eq (formatStrings messages : List (List Char)) :
    registerAll formatStrings messages = (formatStrings ++ messages,
      (List.range messages.length).map fun k => BitVec.ofNat 16 (formatStrings.length + k)) := by
  induction messages generalizing formatStrings with
  | nil => simp [registerAll]
  | cons f fs ih =>
    simp only [registerAll, registerMessage, ih]
    simp [List.range_succ_eq_map, Nat.add_assoc, Nat.add_comm 1]

/-- The line that a call should give: its message, found under the number it was registered with,
with the placeholders filled in from left to right. -/
def expectedLine (messages : List (List Char)) (ev : LogEvent) : Option (List Char) :=
  (messages[ev.messageId.toNat]?).map fun m =>
    outputLine ev.timestampNs (fill '{' '}' m [stdToString ev.arg1, stdToString ev.arg2])

theorem printLine_eq (messages : List (List Char)) (ev : LogEvent) :
    printLine (registerAll [] messages).1 ev = expectedLine messages ev := by
  rw [registerAll_eq, List.nil_append, printLine, expectedLine]
  congr 1
  funext format
  rw [formatMessage_eq]

/-- A number that `register_message` gave out finds its own message, unless 2 ^ 16 messages came
before it. -/
theorem expectedLine_of_registered {messages : List (List Char)} {k : ℕ} {m : List Char}
    {id : BitVec 16} (hm : messages[k]? = some m) (hid : (registerAll [] messages).2[k]? = some id)
    (hk : k < 2 ^ 16) {ev : LogEvent} (hev : ev.messageId = id) :
    expectedLine messages ev = some
      (outputLine ev.timestampNs (fill '{' '}' m [stdToString ev.arg1, stdToString ev.arg2])) := by
  have hlt : k < messages.length := (List.getElem?_eq_some_iff.mp hm).1
  rw [registerAll_eq] at hid
  have hkid : BitVec.ofNat 16 k = id := by simpa [hlt] using hid
  have hnum : ev.messageId.toNat = k := by
    rw [hev, ← hkid, BitVec.toNat_ofNat, Nat.mod_eq_of_lt hk]
  rw [expectedLine, hnum, hm]
  rfl

/-! ## Runs -/

/-- With domain and conduit seen as `v`. -/
structure LogInv {P E : Type} (sees : P → List E → PipeView LogEvent → Prop)
    (messages : List (List Char)) (cells : ℕ) (es : List LogNote) (s : LogSystem P E)
    (v : PipeView LogEvent) : Prop where
  registered : s.formatStrings = (registerAll [] messages).1
  seen : sees s.core s.handles v
  flow : poppedLogs es ++ v.queue = acceptedLogs es
  lines : printedLines es ++ s.pc.inHand.filterMap (expectedLine messages) =
    (poppedLogs es).filterMap (expectedLine messages)
  cells : v.free + s.handles.length + v.queue.length = cells

section Runs
variable {P E : Type} {pipe : EventPipe P E LogEvent}
  {sees : P → List E → PipeView LogEvent → Prop} {messages : List (List Char)} {cells : ℕ}
  {es : List LogNote} {s t : LogSystem P E} {e : LogNote} {v v' : PipeView LogEvent}

/-- A step that no event passes. -/
theorem LogInv.quiet (h : LogInv sees messages cells es s v)
    (hreg : t.formatStrings = s.formatStrings) (hseen : sees t.core t.handles v')
    (hqueue : v'.queue = v.queue) (hhand : t.pc.inHand = s.pc.inHand)
    (hcells : v'.free + t.handles.length = v.free + s.handles.length)
    (haccepted : e.accepted? = none) (hpopped : e.popped? = none) (hline : e.line? = none) :
    LogInv sees messages cells (es ++ [e]) t v' := by
  have ha : acceptedLogs (es ++ [e]) = acceptedLogs es := by simp [acceptedLogs_snoc, haccepted]
  have hp : poppedLogs (es ++ [e]) = poppedLogs es := by simp [poppedLogs_snoc, hpopped]
  have hl : printedLines (es ++ [e]) = printedLines es := by simp [printedLines_snoc, hline]
  refine ⟨hreg.trans h.registered, hseen, ?_, ?_, ?_⟩
  · rw [hp, hqueue, ha]
    exact h.flow
  · rw [hl, hhand, hp]
    exact h.lines
  · rw [hcells, hqueue]
    exact h.cells

theorem handles_of {pc : LoggerPc E} (h : s.pc = pc) :
    s.handles = (s.client.map Prod.fst).toList ++ pc.event.toList := by
  rw [LogSystem.handles, h]

/-- The node moves without an event. -/
theorem LogInv.moved (h : LogInv sees messages cells es s v) {running : Bool} {pc : LoggerPc E}
    (hevent : pc.event = s.pc.event) (hhand : pc.inHand = s.pc.inHand) :
    LogInv sees messages cells (es ++ [.silent]) { s with isRunning := running, pc := pc } v := by
  refine h.quiet rfl ?_ rfl hhand ?_ rfl rfl rfl
  · simpa only [LogSystem.handles, hevent] using h.seen
  · simp only [LogSystem.handles, hevent]

theorem LogInv.popped (hpipe : pipe.Lawful sees) (h : LogInv sees messages cells es s v)
    (hpc : s.pc = .pop) {ev : E} {event : LogEvent} {p : P}
    (hpop : pipe.pop s.core = (some (ev, event), p)) :
    ∃ v', LogInv sees messages cells (es ++ [.popped event])
      { s with core := p, pc := .print ev event } v' := by
  obtain ⟨hreg, hseen, hflow, hlines, hcells⟩ := h
  rw [handles_of hpc] at hseen hcells
  rw [hpc] at hlines
  obtain ⟨queue, hqueue, hseen'⟩ := hpipe.pop_some hseen hpop
  rw [hqueue] at hflow hcells
  refine ⟨_, hreg, hpipe.perm hseen' ?_, ?_, ?_, ?_⟩
  · exact List.perm_middle.symm
  · rw [poppedLogs_snoc, acceptedLogs_snoc]
    simpa [LogNote.popped?, LogNote.accepted?] using hflow
  · rw [printedLines_snoc, poppedLogs_snoc, List.filterMap_append, ← hlines]
    simp [LogNote.popped?, LogNote.line?, LoggerPc.inHand]
  · simp only [LogSystem.handles, LoggerPc.event, Option.toList_none, Option.toList_some,
      List.length_append, List.length_cons, List.length_nil] at hcells ⊢
    omega

theorem LogInv.printed (hpipe : pipe.Lawful sees) (h : LogInv sees messages cells es s v) {ev : E}
    {event : LogEvent} (hpc : s.pc = .print ev event) :
    LogInv sees messages cells (es ++ [.printed (printLine s.formatStrings event)])
      { s with core := pipe.drop s.core ev, pc := .test } { v with free := v.free + 1 } := by
  obtain ⟨hreg, hseen, hflow, hlines, hcells⟩ := h
  rw [handles_of hpc] at hseen hcells
  rw [hpc] at hlines
  refine ⟨hreg, hpipe.drop (hpipe.perm hseen List.perm_middle), ?_, ?_, ?_⟩
  · rw [poppedLogs_snoc, acceptedLogs_snoc]
    simpa [LogNote.popped?, LogNote.accepted?] using hflow
  · rw [printedLines_snoc, poppedLogs_snoc, hreg, printLine_eq]
    cases hline : expectedLine messages event <;>
      simpa [LogNote.popped?, LogNote.line?, LoggerPc.inHand, hline] using hlines
  · simp only [LogSystem.handles, LoggerPc.event, Option.toList_none, Option.toList_some,
      List.length_append, List.length_cons, List.length_nil] at hcells ⊢
    omega

theorem LogInv.node (hpipe : pipe.Lawful sees) (h : LogInv sees messages cells es s v)
    (hs : loggerStep pipe s .node = some (t, e)) :
    ∃ v', LogInv sees messages cells (es ++ [e]) t v' := by
  simp only [loggerStep] at hs
  cases hpc : s.pc with
  | outside => simp [hpc] at hs
  | setRunning =>
    simp only [hpc] at hs
    cases hs
    exact ⟨v, h.moved (by rw [hpc]; rfl) (by rw [hpc]; rfl)⟩
  | test =>
    simp only [hpc] at hs
    cases hs
    refine ⟨v, h.moved ?_ ?_⟩ <;> rw [hpc] <;> split_ifs <;> rfl
  | pop =>
    simp only [hpc] at hs
    rcases hpop : pipe.pop s.core with ⟨_ | ⟨ev, event⟩, p⟩
    · rw [hpop] at hs
      cases hs
      have hseen := hpipe.pop_none h.seen hpop
      rw [handles_of hpc] at hseen
      exact ⟨v, h.quiet rfl hseen rfl (by rw [hpc]; rfl) (by rw [handles_of hpc]; rfl) rfl rfl rfl⟩
    · rw [hpop] at hs
      cases hs
      exact h.popped hpipe hpc hpop
  | print ev event =>
    simp only [hpc] at hs
    cases hs
    exact ⟨_, h.printed hpipe hpc⟩

theorem LogInv.logged (hpipe : pipe.Lawful sees) (h : LogInv sees messages cells es s v)
    {event : LogEvent} (hs : loggerStep pipe s (.log event) = some (t, e)) :
    ∃ v', LogInv sees messages cells (es ++ [e]) t v' := by
  simp only [loggerStep] at hs
  split at hs
  · cases hs
  rename_i hclient
  rcases hmake : pipe.make s.core with ⟨_ | ev, p⟩
  · rw [hmake] at hs
    cases hs
    exact ⟨v, h.quiet rfl (hpipe.make_none h.seen hmake) rfl rfl rfl rfl rfl rfl⟩
  · rw [hmake] at hs
    cases hs
    obtain ⟨hfree, hseen⟩ := hpipe.make_some h.seen hmake
    have hhandles : s.handles = s.pc.event.toList := by
      simp [LogSystem.handles, hclient]
    rw [hhandles] at hseen
    refine ⟨_, h.quiet rfl hseen rfl rfl ?_ rfl rfl rfl⟩
    rw [hhandles]
    simp only [LogSystem.handles, Option.map_some, Option.toList_some, List.length_append,
      List.length_singleton]
    omega

theorem LogInv.pushed (hpipe : pipe.Lawful sees) (h : LogInv sees messages cells es s v)
    (hs : loggerStep pipe s .push = some (t, e)) :
    ∃ v', LogInv sees messages cells (es ++ [e]) t v' := by
  rcases hclient : s.client with _ | ⟨ev, event⟩
  · simp [loggerStep, hclient] at hs
  have hhandles : s.handles = ev :: s.pc.event.toList := by
    simp [LogSystem.handles, hclient]
  have hseen := h.seen
  rw [hhandles] at hseen
  rcases hpush : pipe.push s.core (some ev) event with ⟨_ | _, rest, p⟩
  · simp only [loggerStep, hclient, hpush] at hs
    cases hs
    obtain ⟨rfl, hp⟩ := hpipe.push_false hseen hpush
    refine ⟨_, h.quiet rfl (hpipe.drop hp) rfl rfl ?_ rfl rfl rfl⟩
    rw [hhandles]
    simp only [LogSystem.handles, Option.map_none, Option.toList_none, List.nil_append,
      List.length_cons]
    omega
  · simp only [loggerStep, hclient, hpush] at hs
    cases hs
    obtain ⟨rfl, hp⟩ := hpipe.push_true hseen hpush
    obtain ⟨hreg, -, hflow, hlines, hcells⟩ := h
    rw [hhandles] at hcells
    refine ⟨_, hreg, hp, ?_, ?_, ?_⟩
    · rw [poppedLogs_snoc, acceptedLogs_snoc, ← hflow]
      simp [LogNote.popped?, LogNote.accepted?]
    · rw [printedLines_snoc, poppedLogs_snoc]
      simpa [LogNote.popped?, LogNote.line?] using hlines
    · simp only [LogSystem.handles, Option.map_none, Option.toList_none, List.nil_append,
        List.length_append, List.length_cons, List.length_nil] at hcells ⊢
      omega

theorem LogInv.step (hpipe : pipe.Lawful sees) (h : LogInv sees messages cells es s v)
    {a : LogAction} (hs : loggerStep pipe s a = some (t, e)) :
    ∃ v', LogInv sees messages cells (es ++ [e]) t v' := by
  cases a with
  | log event => exact h.logged hpipe hs
  | push => exact h.pushed hpipe hs
  | callRun =>
    simp only [loggerStep] at hs
    split at hs
    · rename_i hpc
      cases hs
      exact ⟨v, h.moved (by rw [hpc]; rfl) (by rw [hpc]; rfl)⟩
    · cases hs
  | node => exact h.node hpipe hs
  | stop =>
    cases hs
    exact ⟨v, h.moved rfl rfl⟩

/-- A call is refused only when all cells are in use or the conduit is full. -/
theorem LogInv.refused {room : ℕ} (hprompt : pipe.Prompt sees room)
    (h : LogInv sees messages cells es s v) {a : LogAction} {event : LogEvent}
    (hs : loggerStep pipe s a = some (t, .logged event false)) :
    s.handles.length + v.queue.length = cells ∨ room ≤ v.queue.length := by
  cases a with
  | log event' =>
    simp only [loggerStep] at hs
    split at hs
    · cases hs
    rcases hmake : pipe.make s.core with ⟨_ | ev, p⟩
    · left
      have hfree := hprompt.make_none h.seen hmake
      have hcells := h.cells
      omega
    · rw [hmake] at hs
      cases hs
  | push =>
    rcases hclient : s.client with _ | ⟨ev, event'⟩
    · simp [loggerStep, hclient] at hs
    have hseen := h.seen
    rw [show s.handles = ev :: s.pc.event.toList by simp [LogSystem.handles, hclient]] at hseen
    rcases hpush : pipe.push s.core (some ev) event' with ⟨_ | _, rest, p⟩
    · exact .inr (hprompt.push_false hseen hpush)
    · simp only [loggerStep, hclient, hpush] at hs
      cases hs
  | callRun =>
    simp only [loggerStep] at hs
    split at hs <;> cases hs
  | stop => cases hs
  | node =>
    simp only [loggerStep] at hs
    split at hs
    · cases hs
    · cases hs
    · cases hs
    · split at hs <;> cases hs
    · cases hs

/-- Over a lawful and prompt pipe, the lines printed are those of the accepted calls, in the order
of the calls, but for the events that still wait in the conduit or are being printed; a call is
refused only when all cells are in use or the conduit is full; and no cell is lost. The line of a
call with the number that `register_message` gave for one of the first 2 ^ 16 messages is that
message with its first two placeholders filled. -/
theorem log_lines_in_order (hpipe : pipe.Lawful sees) {room : ℕ} (hprompt : pipe.Prompt sees room)
    (messages : List (List Char)) (cells : ℕ) (p : P) (hp : sees p [] ⟨cells, []⟩)
    (es : List LogNote) (s : LogSystem P E)
    (h : Exec (loggerStep pipe) (fun _ _ => True) (loggerInit messages p) es s) :
    (∃ v, sees s.core s.handles v ∧
      printedLines es ++ (s.pc.inHand ++ v.queue).filterMap (expectedLine messages) =
        (acceptedLogs es).filterMap (expectedLine messages) ∧
      v.free + s.handles.length + v.queue.length = cells ∧
      ∀ a t event, loggerStep pipe s a = some (t, .logged event false) →
        s.handles.length + v.queue.length = cells ∨ room ≤ v.queue.length) ∧
    (∀ k m id event, messages[k]? = some m → (registerAll [] messages).2[k]? = some id →
      k < 2 ^ 16 → event.messageId = id → expectedLine messages event = some
        (outputLine event.timestampNs
          (fill '{' '}' m [stdToString event.arg1, stdToString event.arg2]))) := by
  have hi : ∃ v, LogInv sees messages cells es s v := by
    refine h.invariant (fun es s => ∃ v, LogInv sees messages cells es s v)
      ⟨⟨cells, []⟩, rfl, hp, rfl, rfl, rfl⟩ ?_
    rintro es s a t e ⟨v, hi⟩ _ hs
    exact hi.step hpipe hs
  obtain ⟨v, hi⟩ := hi
  refine ⟨⟨v, hi.seen, ?_, hi.cells, fun a t event hs => hi.refused hprompt hs⟩, ?_⟩
  · rw [← hi.flow, List.filterMap_append, List.filterMap_append, ← hi.lines, List.append_assoc]
  · intro k m id event hm hid hk hevent
    exact expectedLine_of_registered hm hid hk hevent

end Runs

/-- A message without a placeholder, and one with two. -/
def twoMessages : List (List Char) := ["x".toList, "a\x7b\x7db\x7b\x7d".toList]

/-- Two cells, and a conduit with room for two events. -/
def logCore : PooledConduit LogEvent 3 := .init (Nat.succ_pos 2) 2 fun _ => 0#64

/-- A call is printed, the next one waits. -/
theorem log_lines_in_order_two :
    ∃ (es : List LogNote) (s : LogSystem (PooledConduit LogEvent 3) ℕ),
      Exec (loggerStep (pooledPipe _ 3 0#64)) (fun _ _ => True) (loggerInit twoMessages logCore)
        es s ∧
      printedLines es = ["[LOG 5] a7b8\n".toList] ∧
      ∃ v, s.core.SeenAs 2 s.handles v ∧
        printedLines es ++ (s.pc.inHand ++ v.queue).filterMap (expectedLine twoMessages) =
          (acceptedLogs es).filterMap (expectedLine twoMessages) := by
  have h := exec_of_run (show run (loggerStep (pooledPipe _ 3 0#64)) (fun _ _ => True)
    (loggerInit twoMessages logCore)
    [.callRun, .node, .log ⟨5, 1, 7, 8⟩, .push, .node, .node, .log ⟨6, 0, 0, 0⟩, .node, .push] =
      some (_, _) from rfl)
  obtain ⟨⟨v, hseen, hlines, -⟩, -⟩ := log_lines_in_order
    (pooledPipe_lawful (show 2 ≤ 2 ^ 32 - 1 by decide) 0#64) (pooledPipe_prompt 0#64) twoMessages 2
    logCore (init_seenAs (Nat.succ_pos 2) (by decide) (by decide) _) _ _ h
  exact ⟨_, _, h, by decide, v, hseen, hlines⟩

end ConduitRuntime.Supplemental
