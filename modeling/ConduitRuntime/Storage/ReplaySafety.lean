import ConduitRuntime.Storage.ReplaySteps

/-! What becomes of every record of the file while it is replayed under backpressure. -/
namespace ConduitRuntime.Storage
open Execution ConduitRuntime.Ring
set_option autoImplicit false

/-! ## One more event -/

section Trace
variable (es : List ReplayEvent) (e : ReplayEvent)

@[simp] theorem readRecords_snoc :
    readRecords (es ++ [e]) = readRecords es ++ e.read?.toList := filterMap_snoc _ es e

@[simp] theorem settledRecords_snoc :
    settledRecords (es ++ [e]) = settledRecords es ++ e.settled?.toList := filterMap_snoc _ es e

@[simp] theorem poppedRecords_snoc :
    poppedRecords (es ++ [e]) = poppedRecords es ++ e.popped?.toList := filterMap_snoc _ es e

@[simp] theorem pushedRecords_snoc :
    pushedRecords (es ++ [e]) =
      pushedRecords es ++ (e.settled?.toList.filter Prod.snd).map Prod.fst := by
  simp [pushedRecords]

@[simp] theorem lostRecords_snoc :
    lostRecords (es ++ [e]) =
      lostRecords es ++ (e.settled?.toList.filter fun r => !r.2).map Prod.fst := by
  simp [lostRecords]

@[simp] theorem stopCalls_snoc :
    stopCalls (es ++ [e]) = stopCalls es + if e = .stopped then 1 else 0 := by
  rw [stopCalls, List.count_append]
  by_cases he : e = .stopped <;> simp [stopCalls, he]

end Trace

/-! ## The account of the records -/

/-- Inside the loop with one more record to lose: past the test. -/
def ReplayPc.atRisk {E : Type} : ReplayPc E → ℕ
  | .make => 1
  | .read _ => 1
  | .push _ _ => 1
  | .waiting _ _ => 1
  | _ => 0

/-- The loop has been entered and not left by a `break`. -/
def ReplayPc.inLoop {E : Type} : ReplayPc E → Prop
  | .outside => False
  | .checkFd => False
  | .setRunning => False
  | .finish (some _) => False
  | _ => True

/-- The events that the thread and the Core have. -/
def ReplaySystem.handles {P E : Type} (s : ReplaySystem P E) : List E := s.pc.event.toList ++ s.held

/-- With the pipe seen as `v`: the records read are whole and the first of the file; a torn record
may follow them, and then nothing is left to read. A record in hand is in an event. Each `stop`
costs one record at most. -/
structure ReplayInv {P E : Type} (sees : P → List E → PipeView (List UInt8) → Prop)
    (size cells : ℕ) (file : List UInt8) (es : List ReplayEvent) (s : ReplaySystem P E)
    (v : PipeView (List UInt8)) : Prop where
  seen : sees s.core s.handles v
  filled : s.pc.inHand ≠ [] → s.pc.event ≠ none
  flow : poppedRecords es ++ v.queue = pushedRecords es
  settled : (settledRecords es).map Prod.fst ++ s.pc.inHand = readRecords es
  whole : ∀ r ∈ readRecords es, r.length = size
  torn : ∃ torn, file = (readRecords es).flatten ++ torn ++ s.unread ∧ torn.length < size ∧
    (torn ≠ [] → s.unread = [])
  cells : v.free + s.handles.length + v.queue.length = cells
  losses : (lostRecords es).length ≤ stopCalls es
  stopping : s.isRunning = false → s.pc.inLoop →
    (lostRecords es).length + s.pc.atRisk ≤ stopCalls es ∧ 1 ≤ stopCalls es

section Account
variable {P E : Type} {pipe : EventPipe P E (List UInt8)}
  {sees : P → List E → PipeView (List UInt8) → Prop} {size cells : ℕ} {file : List UInt8}
  {es : List ReplayEvent} {s t : ReplaySystem P E} {e : ReplayEvent} {v v' : PipeView (List UInt8)}

theorem handles_of {pc : ReplayPc E} (h : s.pc = pc) : s.handles = pc.event.toList ++ s.held := by
  rw [ReplaySystem.handles, h]

/-- Nothing happens to a record. -/
def ReplayEvent.quiet : ReplayEvent → Bool
  | .silent => true
  | .retried => true
  | .ended _ => true
  | _ => false

theorem trace_quiet (es : List ReplayEvent) (he : e.quiet = true) :
    readRecords (es ++ [e]) = readRecords es ∧ settledRecords (es ++ [e]) = settledRecords es ∧
      poppedRecords (es ++ [e]) = poppedRecords es ∧ stopCalls (es ++ [e]) = stopCalls es := by
  cases e with
  | silent => simp [ReplayEvent.read?, ReplayEvent.settled?, ReplayEvent.popped?]
  | retried => simp [ReplayEvent.read?, ReplayEvent.settled?, ReplayEvent.popped?]
  | ended reason => simp [ReplayEvent.read?, ReplayEvent.settled?, ReplayEvent.popped?]
  | _ => cases he

theorem ReplayInv.quiet (h : ReplayInv sees size cells file es s v) (he : e.quiet = true)
    (hseen : sees t.core t.handles v') (hqueue : v'.queue = v.queue)
    (hunread : t.unread = s.unread) (hhand : t.pc.inHand = s.pc.inHand)
    (hfilled : t.pc.inHand ≠ [] → t.pc.event ≠ none)
    (hcells : v'.free + t.handles.length = v.free + s.handles.length)
    (hstop : t.isRunning = false → t.pc.inLoop →
      (lostRecords es).length + t.pc.atRisk ≤ stopCalls es ∧ 1 ≤ stopCalls es) :
    ReplayInv sees size cells file (es ++ [e]) t v' := by
  obtain ⟨hread, hset, hpopped, hstops⟩ := trace_quiet es he
  have hpushed : pushedRecords (es ++ [e]) = pushedRecords es := by
    unfold pushedRecords
    rw [hset]
  have hlost : lostRecords (es ++ [e]) = lostRecords es := by
    unfold lostRecords
    rw [hset]
  refine ⟨hseen, hfilled, ?_, ?_, ?_, ?_, ?_, ?_, ?_⟩
  · rw [hpopped, hqueue, hpushed]
    exact h.flow
  · rw [hset, hhand, hread]
    exact h.settled
  · rw [hread]
    exact h.whole
  · rw [hread, hunread]
    exact h.torn
  · have := h.cells
    rw [hqueue]
    omega
  · rw [hlost, hstops]
    exact h.losses
  · rw [hlost, hstops]
    exact hstop

/-- A step of the thread that moves no event and no record. -/
theorem ReplayInv.moved (h : ReplayInv sees size cells file es s v) (he : e.quiet = true)
    {running : Bool} {pc : ReplayPc E} (hevent : pc.event = s.pc.event)
    (hhand : pc.inHand = s.pc.inHand)
    (hstop : running = false → pc.inLoop →
      (lostRecords es).length + pc.atRisk ≤ stopCalls es ∧ 1 ≤ stopCalls es) :
    ReplayInv sees size cells file (es ++ [e]) { s with isRunning := running, pc := pc } v := by
  refine h.quiet he ?_ rfl rfl hhand ?_ ?_ hstop
  · simpa only [ReplaySystem.handles, hevent] using h.seen
  · simpa only [hevent, hhand] using h.filled
  · simp only [ReplaySystem.handles, hevent]

/-- A `read` that gives no whole record takes all that is left of the file. -/
theorem read_short (hsize : size < 2 ^ 31) {unread : List UInt8}
    (h : ¬ equalsSize (toInt (unread.take size).length) size = true) : unread.length < size := by
  by_contra hlen
  apply h
  rw [List.length_take, min_eq_left (by omega), equalsSize_iff (by omega) (by omega) (by omega)]
  exact ⟨rfl, hsize⟩

theorem read_whole (hsize : size < 2 ^ 31) {unread : List UInt8}
    (h : equalsSize (toInt (unread.take size).length) size = true) :
    (unread.take size).length = size := by
  rw [equalsSize_iff (by omega) (by omega) (by simp)] at h
  exact_mod_cast h.1

/-- What `read` gives: a whole record, or the end of the file. -/
theorem read_cases (hs : replayIo pipe size s = some (t, e)) {ev : E} (hpc : s.pc = .read ev) :
    (equalsSize (toInt (s.unread.take size).length) size = true ∧
      t = { s with unread := s.unread.drop size, pc := .push (some ev) (s.unread.take size) } ∧
      e = .read (s.unread.take size)) ∨
    ¬ equalsSize (toInt (s.unread.take size).length) size = true ∧ e = .silent ∧
      ∃ reason, t = { s with
        unread := s.unread.drop size
        core := pipe.drop s.core ev
        pc := .finish (some reason) } := by
  simp only [replayIo, hpc] at hs
  by_cases hwhole : equalsSize (toInt (s.unread.take size).length) size = true
  · rw [if_pos hwhole] at hs
    cases hs
    exact .inl ⟨hwhole, rfl, rfl⟩
  · rw [if_neg hwhole] at hs
    right
    refine ⟨hwhole, ?_⟩
    split_ifs at hs <;> cases hs <;> exact ⟨rfl, _, rfl⟩

theorem ReplayInv.read_record (hpos : 0 < size) (h : ReplayInv sees size cells file es s v) {ev : E}
    (hpc : s.pc = .read ev) (hlen : (s.unread.take size).length = size) :
    ReplayInv sees size cells file (es ++ [.read (s.unread.take size)])
      { s with unread := s.unread.drop size, pc := .push (some ev) (s.unread.take size) } v := by
  obtain ⟨hseen, -, hflow, hsettled, hwhole, ⟨torn, hfile, htorn, hlast⟩, hcells, hlosses,
    hstopping⟩ := h
  rw [handles_of hpc] at hseen hcells
  rw [hpc] at hsettled hstopping
  have hnil : torn = [] := by
    by_contra hne
    rw [hlast hne, List.take_nil] at hlen
    simp at hlen
    omega
  have hrecords : readRecords (es ++ [.read (s.unread.take size)]) =
      readRecords es ++ [s.unread.take size] := by simp [ReplayEvent.read?]
  refine ⟨hseen, by simp [ReplayPc.event], ?_, ?_, ?_, ?_, hcells, ?_, ?_⟩
  · simpa [ReplayEvent.popped?, ReplayEvent.settled?] using hflow
  · rw [hrecords, ← hsettled]
    simp [ReplayEvent.settled?, ReplayPc.inHand]
  · rw [hrecords]
    intro r hr
    rcases List.mem_append.mp hr with hr | hr
    · exact hwhole r hr
    · rw [List.mem_singleton.mp hr]
      exact hlen
  · refine ⟨[], ?_, hpos, fun hne => absurd rfl hne⟩
    rw [hrecords, hfile, hnil]
    simp
  · simpa [ReplayEvent.settled?] using hlosses
  · simpa [ReplayEvent.settled?, ReplayPc.inLoop, ReplayPc.atRisk] using hstopping

/-- The rest of the file, if any, is torn. -/
theorem ReplayInv.read_end (hpipe : pipe.Lawful sees) (h : ReplayInv sees size cells file es s v)
    {ev : E} (hpc : s.pc = .read ev) (hshort : s.unread.length < size) (reason : ReplayEnd) :
    ReplayInv sees size cells file (es ++ [.silent])
      { s with
        unread := s.unread.drop size
        core := pipe.drop s.core ev
        pc := .finish (some reason) } { v with free := v.free + 1 } := by
  obtain ⟨hseen, -, hflow, hsettled, hwhole, ⟨torn, hfile, htorn, hlast⟩, hcells, hlosses, -⟩ := h
  rw [handles_of hpc] at hseen hcells
  rw [hpc] at hsettled
  refine ⟨hpipe.drop hseen, by simp [ReplayPc.inHand], ?_, ?_, ?_, ?_, ?_, ?_, ?_⟩
  · simpa [ReplayEvent.popped?, ReplayEvent.settled?] using hflow
  · simpa [ReplayEvent.settled?, ReplayEvent.read?, ReplayPc.inHand] using hsettled
  · simpa [ReplayEvent.read?] using hwhole
  · refine ⟨torn ++ s.unread, ?_, ?_, ?_⟩
    · simp [ReplayEvent.read?, hfile, List.drop_eq_nil_of_le hshort.le]
    · by_cases hne : torn = []
      · simpa [hne] using hshort
      · simpa [hlast hne] using htorn
    · intro _
      exact List.drop_eq_nil_of_le hshort.le
  · simp only [ReplaySystem.handles, ReplayPc.event, Option.toList_some, Option.toList_none,
      List.cons_append, List.nil_append, List.length_cons] at hcells ⊢
    omega
  · simpa [ReplayEvent.settled?] using hlosses
  · intro _ hin
    cases hin

theorem ReplayInv.pushed {ev : Option E} {buffer : List UInt8} {p : P}
    (h : ReplayInv sees size cells file es s v) (hpc : s.pc = .push ev buffer) (hev : ev ≠ none)
    (hseen : sees p s.held { v with queue := v.queue ++ [buffer] }) :
    ReplayInv sees size cells file (es ++ [.pushed buffer]) { s with core := p, pc := .test }
      { v with queue := v.queue ++ [buffer] } := by
  obtain ⟨-, -, hflow, hsettled, hwhole, htorn, hcells, hlosses, hstopping⟩ := h
  rw [handles_of hpc] at hcells
  rw [hpc] at hsettled hstopping
  obtain ⟨ev, rfl⟩ := Option.ne_none_iff_exists'.mp hev
  refine ⟨hseen, by simp [ReplayPc.inHand], ?_, ?_, ?_, ?_, ?_, ?_, ?_⟩
  · simp [ReplayEvent.popped?, ReplayEvent.settled?, ← hflow]
  · simpa [ReplayEvent.read?, ReplayEvent.settled?, ReplayPc.inHand] using hsettled
  · simpa [ReplayEvent.read?] using hwhole
  · simpa [ReplayEvent.read?] using htorn
  · simp only [ReplaySystem.handles, ReplayPc.event, Option.toList_some, Option.toList_none,
      List.length_append, List.length_singleton, List.length_nil] at hcells ⊢
    omega
  · simpa [ReplayEvent.settled?] using hlosses
  · intro hrun _
    obtain ⟨hlost, hstop⟩ := hstopping hrun trivial
    simp only [lostRecords_snoc, stopCalls_snoc, ReplayEvent.settled?, ReplayPc.atRisk] at hlost ⊢
    simp
    omega

theorem ReplayInv.lost (hpipe : pipe.Lawful sees) {ev : E} {buffer : List UInt8}
    (h : ReplayInv sees size cells file es s v) (hpc : s.pc = .waiting (some ev) buffer)
    (hrun : s.isRunning = false) :
    ReplayInv sees size cells file (es ++ [.lost buffer])
      { s with core := pipe.drop s.core ev, pc := .test } { v with free := v.free + 1 } := by
  obtain ⟨hseen, -, hflow, hsettled, hwhole, htorn, hcells, hlosses, hstopping⟩ := h
  rw [handles_of hpc] at hseen hcells
  rw [hpc] at hsettled hstopping
  obtain ⟨hlost, hstop⟩ := hstopping hrun trivial
  refine ⟨hpipe.drop hseen, by simp [ReplayPc.inHand], ?_, ?_, ?_, ?_, ?_, ?_, ?_⟩
  · simpa [ReplayEvent.popped?, ReplayEvent.settled?] using hflow
  · simpa [ReplayEvent.read?, ReplayEvent.settled?, ReplayPc.inHand] using hsettled
  · simpa [ReplayEvent.read?] using hwhole
  · simpa [ReplayEvent.read?] using htorn
  · simp only [ReplaySystem.handles, ReplayPc.event, Option.toList_some, Option.toList_none,
      List.cons_append, List.nil_append, List.length_cons] at hcells ⊢
    omega
  · simpa [ReplayEvent.settled?, ReplayPc.atRisk] using hlost
  · intro _ _
    simpa [ReplayEvent.settled?, ReplayPc.atRisk] using ⟨hlost, hstop⟩

/-- `push` either takes the record or leaves everything as it was. -/
theorem push_cases (hpipe : pipe.Lawful sees) (h : ReplayInv sees size cells file es s v)
    {ev : Option E} {buffer : List UInt8} (hpc : s.pc = .push ev buffer)
    (hs : replayIo pipe size s = some (t, e)) :
    (∃ p, sees p s.held { v with queue := v.queue ++ [buffer] } ∧
      t = { s with core := p, pc := .test } ∧ e = .pushed buffer) ∨
    ∃ p, sees p s.handles v ∧ t = { s with core := p, pc := .waiting ev buffer } ∧
      e = .retried := by
  have hseen := h.seen
  have hev := h.filled (by simp [hpc, ReplayPc.inHand])
  rw [handles_of hpc] at hseen ⊢
  rw [hpc] at hev
  obtain ⟨ev, rfl⟩ := Option.ne_none_iff_exists'.mp hev
  simp only [replayIo, hpc] at hs
  rcases hpush : pipe.push s.core (some ev) buffer with ⟨_ | _, rest, p⟩
  · obtain ⟨rfl, hp⟩ := hpipe.push_false hseen hpush
    rw [hpush] at hs
    cases hs
    exact .inr ⟨p, hp, rfl, rfl⟩
  · obtain ⟨rfl, hp⟩ := hpipe.push_true hseen hpush
    rw [hpush] at hs
    cases hs
    exact .inl ⟨p, hp, rfl, rfl⟩

theorem ReplayInv.io (hpipe : pipe.Lawful sees) (hpos : 0 < size) (hsize : size < 2 ^ 31)
    (h : ReplayInv sees size cells file es s v) (hs : replayIo pipe size s = some (t, e)) :
    ∃ v', ReplayInv sees size cells file (es ++ [e]) t v' := by
  have hseen := h.seen
  have hcells := h.cells
  have hstopping := h.stopping
  cases hpc : s.pc with
  | outside => simp [replayIo, hpc] at hs
  | checkFd =>
    simp only [replayIo, hpc] at hs
    split_ifs at hs <;> cases hs <;>
      exact ⟨v, h.moved rfl (by rw [hpc]; rfl) (by rw [hpc]; rfl) (by simp [ReplayPc.inLoop])⟩
  | setRunning =>
    simp only [replayIo, hpc] at hs
    cases hs
    exact ⟨v, h.moved rfl (by rw [hpc]; rfl) (by rw [hpc]; rfl) (by simp)⟩
  | test =>
    rw [hpc] at hstopping
    simp only [replayIo, hpc] at hs
    split_ifs at hs with hrun
    · cases hs
      exact ⟨v, h.moved rfl (by rw [hpc]; rfl) (by rw [hpc]; rfl) (by simp [hrun])⟩
    · cases hs
      exact ⟨v, h.moved rfl (by rw [hpc]; rfl) (by rw [hpc]; rfl) fun hr _ => hstopping hr trivial⟩
  | make =>
    rw [handles_of hpc] at hseen hcells
    rw [hpc] at hstopping
    simp only [replayIo, hpc] at hs
    rcases hmake : pipe.make s.core with ⟨_ | ev, p⟩
    · rw [hmake] at hs
      cases hs
      refine ⟨v, h.quiet rfl (hpipe.make_none hseen hmake) rfl rfl (by rw [hpc]; rfl)
        (by simp [ReplayPc.inHand]) (by rw [handles_of hpc]; rfl) fun hr _ => ?_⟩
      obtain ⟨hlost, hstop⟩ := hstopping hr trivial
      exact ⟨(Nat.le_add_right _ 1).trans hlost, hstop⟩
    · rw [hmake] at hs
      cases hs
      obtain ⟨hfree, hseen'⟩ := hpipe.make_some hseen hmake
      refine ⟨_, h.quiet rfl hseen' rfl rfl (by rw [hpc]; rfl) (by simp [ReplayPc.inHand]) ?_
        fun hr _ => hstopping hr trivial⟩
      rw [handles_of hpc]
      simp only [ReplaySystem.handles, ReplayPc.event, Option.toList_some, Option.toList_none,
        List.cons_append, List.nil_append, List.length_cons]
      omega
  | read ev =>
    rcases read_cases hs hpc with ⟨hwhole, rfl, rfl⟩ | ⟨hwhole, rfl, reason, rfl⟩
    · exact ⟨v, h.read_record hpos hpc (read_whole hsize hwhole)⟩
    · exact ⟨_, h.read_end hpipe hpc (read_short hsize hwhole) reason⟩
  | push ev buffer =>
    have hev := h.filled (by simp [hpc, ReplayPc.inHand])
    rw [hpc] at hstopping hev
    rcases push_cases hpipe h hpc hs with ⟨p, hp, rfl, rfl⟩ | ⟨p, hp, rfl, rfl⟩
    · exact ⟨_, h.pushed hpc hev hp⟩
    · rw [handles_of hpc] at hp
      exact ⟨v, h.quiet rfl hp rfl rfl (by rw [hpc]; rfl) (fun _ => hev)
        (by rw [handles_of hpc]; rfl) fun hr _ => hstopping hr trivial⟩
  | waiting ev buffer =>
    have hev := h.filled (by simp [hpc, ReplayPc.inHand])
    rw [hpc] at hstopping hev
    obtain ⟨ev, rfl⟩ := Option.ne_none_iff_exists'.mp hev
    simp only [replayIo, hpc] at hs
    split_ifs at hs with hrun
    · cases hs
      exact ⟨v, h.moved rfl (by rw [hpc]; rfl) (by rw [hpc]; rfl) fun hr _ => hstopping hr trivial⟩
    · cases hs
      exact ⟨_, h.lost hpipe hpc (by simpa using hrun)⟩
  | finish reason =>
    simp only [replayIo, hpc] at hs
    cases hs
    exact ⟨v, h.moved rfl (by rw [hpc]; rfl) (by rw [hpc]; rfl) (by simp [ReplayPc.inLoop])⟩

/-- The Core pops an event, or finds none. -/
theorem ReplayInv.popped [DecidableEq E] (hpipe : pipe.Lawful sees)
    (h : ReplayInv sees size cells file es s v)
    (hs : replayStep pipe size s .pop = some (t, e)) :
    ∃ v', ReplayInv sees size cells file (es ++ [e]) t v' := by
  simp only [replayStep] at hs
  rcases hpop : pipe.pop s.core with ⟨_ | ⟨ev, r⟩, p⟩
  · rw [hpop] at hs
    cases hs
    exact ⟨v, h.quiet rfl (hpipe.pop_none h.seen hpop) rfl rfl rfl h.filled rfl h.stopping⟩
  · rw [hpop] at hs
    cases hs
    obtain ⟨queue, hqueue, hseen⟩ := hpipe.pop_some h.seen hpop
    obtain ⟨-, hfilled, hflow, hsettled, hwhole, htorn, hcells, hlosses, hstopping⟩ := h
    rw [hqueue] at hflow hcells
    refine ⟨_, hpipe.perm hseen List.perm_middle.symm, hfilled, ?_, ?_, ?_, ?_, ?_, ?_, ?_⟩
    · simpa [ReplayEvent.popped?, ReplayEvent.settled?] using hflow
    · simpa [ReplayEvent.read?, ReplayEvent.settled?] using hsettled
    · simpa [ReplayEvent.read?] using hwhole
    · simpa [ReplayEvent.read?] using htorn
    · simp only [ReplaySystem.handles, List.length_append, List.length_cons] at hcells ⊢
      omega
    · simpa [ReplayEvent.settled?] using hlosses
    · simpa [ReplayEvent.settled?] using hstopping

/-- The Core drops an event. -/
theorem ReplayInv.dropped [DecidableEq E] (hpipe : pipe.Lawful sees)
    (h : ReplayInv sees size cells file es s v) {ev : E}
    (hs : replayStep pipe size s (.drop ev) = some (t, e)) :
    ∃ v', ReplayInv sees size cells file (es ++ [e]) t v' := by
  simp only [replayStep] at hs
  split_ifs at hs with hev
  cases hs
  have hperm : s.handles.Perm (ev :: (s.pc.event.toList ++ s.held.erase ev)) :=
    ((List.perm_cons_erase hev).append_left _).trans List.perm_middle
  have hlen := hperm.length_eq
  rw [List.length_cons] at hlen
  refine ⟨_, h.quiet rfl (hpipe.drop (hpipe.perm h.seen hperm)) rfl rfl rfl h.filled ?_ h.stopping⟩
  simp only [ReplaySystem.handles] at hlen ⊢
  omega

theorem ReplayInv.step [DecidableEq E] (hpipe : pipe.Lawful sees) (hpos : 0 < size)
    (hsize : size < 2 ^ 31) (h : ReplayInv sees size cells file es s v) {a : ReplayAction E}
    (hs : replayStep pipe size s a = some (t, e)) :
    ∃ v', ReplayInv sees size cells file (es ++ [e]) t v' := by
  cases a with
  | callRun =>
    simp only [replayStep] at hs
    split at hs
    · rename_i hpc
      cases hs
      exact ⟨v, h.moved rfl (by rw [hpc]; rfl) (by rw [hpc]; rfl) (by simp [ReplayPc.inLoop])⟩
    · cases hs
  | io => exact h.io hpipe hpos hsize hs
  | pop => exact h.popped hpipe hs
  | drop ev => exact h.dropped hpipe hs
  | stop =>
    cases hs
    obtain ⟨hseen, hfilled, hflow, hsettled, hwhole, htorn, hcells, hlosses, hstopping⟩ := h
    refine ⟨v, hseen, hfilled, ?_, ?_, ?_, ?_, hcells, ?_, ?_⟩
    · simpa [ReplayEvent.popped?, ReplayEvent.settled?] using hflow
    · simpa [ReplayEvent.read?, ReplayEvent.settled?] using hsettled
    · simpa [ReplayEvent.read?] using hwhole
    · simpa [ReplayEvent.read?] using htorn
    · simp [ReplayEvent.settled?]
      omega
    · intro _ _
      have hrisk : s.pc.atRisk ≤ 1 := by
        unfold ReplayPc.atRisk
        split <;> omega
      simp [ReplayEvent.settled?]
      omega

theorem replayInit_inv (hpos : 0 < size) (fd : ℤ) (file : List UInt8) {p : P}
    (hp : sees p [] ⟨cells, []⟩) :
    ReplayInv sees size cells file [] (replayInit fd file p) ⟨cells, []⟩ := by
  refine ⟨hp, fun hne => absurd rfl hne, rfl, rfl, ?_, ⟨[], rfl, hpos, fun hne => absurd rfl hne⟩,
    rfl, Nat.zero_le _, ?_⟩
  · intro r hr
    cases hr
  · intro _ hin
    cases hin

theorem replay_invariant [DecidableEq E] (hpipe : pipe.Lawful sees) (hpos : 0 < size)
    (hsize : size < 2 ^ 31) {fd : ℤ} {p : P} (hp : sees p [] ⟨cells, []⟩)
    (h : Exec (replayStep pipe size) (fun _ _ => True) (replayInit fd file p) es s) :
    ∃ v, ReplayInv sees size cells file es s v := by
  refine h.invariant (fun es s => ∃ v, ReplayInv sees size cells file es s v)
    ⟨_, replayInit_inv hpos fd file hp⟩ ?_
  rintro es s a t e ⟨v, hi⟩ _ hs
  exact hi.step hpipe hpos hsize hs

/-- Replay under backpressure, stopped and started in any way, over any lawful pipe. What the Core
has popped and what waits in the conduit is what was pushed, in order; every record read is pushed,
lost or in hand, in order, with one lost for each `stop` at most; what was read is the beginning of
the file up to a torn record; and no cell of the pool is lost. -/
theorem replay_accounts [DecidableEq E] (hpipe : pipe.Lawful sees) (hpos : 0 < size)
    (hsize : size < 2 ^ 31) (cells : ℕ) (fd : ℤ) (file : List UInt8) (p : P)
    (hp : sees p [] ⟨cells, []⟩) (es : List ReplayEvent) (s : ReplaySystem P E)
    (h : Exec (replayStep pipe size) (fun _ _ => True) (replayInit fd file p) es s) :
    ∃ v, sees s.core s.handles v ∧
      poppedRecords es ++ v.queue = pushedRecords es ∧
      (settledRecords es).map Prod.fst ++ s.pc.inHand = readRecords es ∧
      (lostRecords es).length ≤ stopCalls es ∧
      (∃ torn, file = (readRecords es).flatten ++ torn ++ s.unread ∧ torn.length < size ∧
        ∀ r ∈ readRecords es, r.length = size) ∧
      v.free + s.handles.length + v.queue.length = cells := by
  obtain ⟨v, hi⟩ := replay_invariant hpipe hpos hsize hp h
  obtain ⟨torn, hfile, htorn, -⟩ := hi.torn
  exact ⟨v, hi.seen, hi.flow, hi.settled, hi.losses, ⟨torn, hfile, htorn, hi.whole⟩, hi.cells⟩

end Account

/-- Two cells, and a conduit with room for one record. -/
def tinyCore : PooledConduit (List UInt8) 2 := .init Nat.two_pos 2 fun _ => 0#64

/-- `stop` comes while the second record waits for room. -/
theorem replay_accounts_one_lost :
    ∃ (es : List ReplayEvent) (s : ReplaySystem (PooledConduit (List UInt8) 2) ℕ),
      Exec (replayStep (pooledPipe _ 2 0#64) 2) (fun _ _ => True)
        (replayInit 3 [1, 2, 3, 4, 5] tinyCore) es s ∧
      lostRecords es = [[3, 4]] ∧ poppedRecords es = [[1, 2]] ∧
      (lostRecords es).length ≤ stopCalls es ∧
      ∃ v, s.core.SeenAs 2 s.handles v ∧ v.free + s.handles.length + v.queue.length = 2 := by
  have h := exec_of_run (show run (replayStep (pooledPipe _ 2 0#64) 2) (fun _ _ => True)
    (replayInit 3 [1, 2, 3, 4, 5] tinyCore)
    [.callRun, .io, .io, .io, .io, .io, .io, .io, .io, .io, .io, .stop, .io, .pop, .io, .io] =
      some (_, _) from rfl)
  obtain ⟨v, hseen, -, -, hlost, -, hcells⟩ := replay_accounts
    (pooledPipe_lawful (show 2 ≤ 2 ^ 32 - 1 by decide) 0#64) (by decide) (by decide) 2 3 _ tinyCore
    (init_seenAs Nat.two_pos (by decide) (by decide) _) _ _ h
  exact ⟨_, _, h, rfl, rfl, hlost, v, hseen, hcells⟩

end ConduitRuntime.Storage
