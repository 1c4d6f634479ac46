import ConduitRuntime.Foundations.Budget
import ConduitRuntime.Storage.ReplayExact
import ConduitRuntime.Storage.ReplaySafety

/-! The round trip from `durable_sink` through the file to the Core: a replay that is not stopped
comes to its end unless the Core fails it for ever, and has then pushed what the file reads as. -/
namespace ConduitRuntime.Storage
open Execution ConduitRuntime.Ring
set_option autoImplicit false

section RoundTrip
variable {P E : Type} {pipe : EventPipe P E (List UInt8)}
  {sees : P → List E → PipeView (List UInt8) → Prop} {size cells : ℕ} {file : List UInt8}
  {es : List ReplayEvent} {s t : ReplaySystem P E} {e : ReplayEvent} {v : PipeView (List UInt8)}

/-! ## A replay that is not stopped -/

/-- Once entered, an open replay that nobody stops is inside its loop, or has read the whole file.
-/
structure Unstopped (fd : ℤ) (s : ReplaySystem P E) : Prop where
  fd_eq : s.fd = fd
  running : s.pc.inLoop → s.isRunning = true
  looping : s.pc ≠ .finish none
  done : s.pc = .outside ∨ (∃ reason, s.pc = .finish (some reason)) → s.unread = []

theorem Unstopped.io (hpipe : pipe.Lawful sees) (hsize : size < 2 ^ 31) {fd : ℤ} (hfd : fd ≠ -1)
    (hi : ReplayInv sees size cells file es s v) (h : Unstopped fd s)
    (hs : replayIo pipe size s = some (t, e)) : Unstopped fd t := by
  obtain ⟨hsame, hrunning, hlooping, hdone⟩ := h
  -- the thread goes on inside the loop
  have honward : t.fd = s.fd → t.isRunning = true → t.pc ≠ .outside →
      (∀ reason, t.pc ≠ .finish reason) → Unstopped fd t := by
    intro hfd' hrun hout hfinish
    refine ⟨hfd'.trans hsame, fun _ => hrun, hfinish none, ?_⟩
    rintro (hpc | ⟨reason, hpc⟩)
    · exact absurd hpc hout
    · exact absurd hpc (hfinish _)
  cases hpc : s.pc with
  | outside => simp [replayIo, hpc] at hs
  | checkFd =>
    simp only [replayIo, hpc, if_neg (hsame ▸ hfd)] at hs
    cases hs
    exact ⟨hsame, fun hin => hin.elim, by simp, by simp⟩
  | setRunning =>
    simp only [replayIo, hpc] at hs
    cases hs
    exact honward rfl rfl (by simp) (by simp)
  | test =>
    have hrun := hrunning (by simp [hpc, ReplayPc.inLoop])
    simp only [replayIo, hpc, if_pos hrun] at hs
    cases hs
    exact honward rfl hrun (by simp) (by simp)
  | make =>
    have hrun := hrunning (by simp [hpc, ReplayPc.inLoop])
    simp only [replayIo, hpc] at hs
    rcases hmake : pipe.make s.core with ⟨_ | ev, p⟩
    · rw [hmake] at hs
      cases hs
      exact honward rfl hrun (by simp) (by simp)
    · rw [hmake] at hs
      cases hs
      exact honward rfl hrun (by simp) (by simp)
  | read ev =>
    have hrun := hrunning (by simp [hpc, ReplayPc.inLoop])
    rcases read_cases hs hpc with ⟨-, rfl, -⟩ | ⟨hwhole, -, reason, rfl⟩
    · exact honward rfl hrun (by simp) (by simp)
    · refine ⟨hsame, fun hin => hin.elim, by simp, fun _ => ?_⟩
      exact List.drop_eq_nil_of_le (read_short hsize hwhole).le
  | push ev buffer =>
    have hrun := hrunning (by simp [hpc, ReplayPc.inLoop])
    rcases push_cases hpipe hi hpc hs with ⟨p, -, rfl, -⟩ | ⟨p, -, rfl, -⟩
    · exact honward rfl hrun (by simp) (by simp)
    · exact honward rfl hrun (by simp) (by simp)
  | waiting ev buffer =>
    have hrun := hrunning (by simp [hpc, ReplayPc.inLoop])
    simp only [replayIo, hpc, if_pos hrun] at hs
    cases hs
    exact honward rfl hrun (by simp) (by simp)
  | finish reason =>
    obtain ⟨reason, rfl⟩ : ∃ r, reason = some r := by
      cases reason with
      | none => exact absurd hpc hlooping
      | some reason => exact ⟨reason, rfl⟩
    simp only [replayIo, hpc] at hs
    cases hs
    exact ⟨hsame, fun hin => hin.elim, by simp, fun _ => hdone (.inr ⟨reason, hpc⟩)⟩

def ReplayAction.isStop : ReplayAction E → Bool
  | .stop => true
  | _ => false

def ReplayAction.isRun : ReplayAction E → Bool
  | .callRun => true
  | _ => false

/-- Nobody stops the replay, and it is not called again. -/
def LeftAlone (_ : ReplaySystem P E) (a : ReplayAction E) : Prop :=
  a.isStop = false ∧ a.isRun = false

instance (s : ReplaySystem P E) (a : ReplayAction E) : Decidable (LeftAlone s a) :=
  inferInstanceAs (Decidable (_ ∧ _))

theorem Unstopped.step [DecidableEq E] (hpipe : pipe.Lawful sees) (hsize : size < 2 ^ 31) {fd : ℤ}
    (hfd : fd ≠ -1) (hi : ReplayInv sees size cells file es s v) (h : Unstopped fd s)
    {a : ReplayAction E} (hok : LeftAlone s a) (hs : replayStep pipe size s a = some (t, e)) :
    Unstopped fd t ∧ stopCalls (es ++ [e]) = stopCalls es := by
  cases a with
  | callRun => cases hok.2
  | stop => cases hok.1
  | pop =>
    simp only [replayStep] at hs
    split at hs <;> cases hs <;> exact ⟨⟨h.fd_eq, h.running, h.looping, h.done⟩, by simp⟩
  | drop ev =>
    simp only [replayStep] at hs
    split_ifs at hs
    cases hs
    exact ⟨⟨h.fd_eq, h.running, h.looping, h.done⟩, by simp⟩
  | io =>
    refine ⟨h.io hpipe hsize hfd hi hs, ?_⟩
    have he : e ≠ .stopped := by
      rintro rfl
      simp only [replayStep, replayIo] at hs
      split at hs
      · cases hs
      · split_ifs at hs <;> cases hs
      · cases hs
      · split_ifs at hs <;> cases hs
      · split at hs <;> cases hs
      · split_ifs at hs <;> cases hs
      · split at hs <;> cases hs
      · split_ifs at hs <;> cases hs
      · cases hs
    simp [he]

/-- `run_replay` has been called. -/
def replayEntered {P E : Type} (fd : ℤ) (file : List UInt8) (p : P) : ReplaySystem P E where
  fd := fd
  unread := file
  isRunning := false
  pc := .checkFd
  core := p
  held := []

theorem replayEntered_inv (hpos : 0 < size) (fd : ℤ) (file : List UInt8) {p : P}
    (hp : sees p [] ⟨cells, []⟩) :
    ReplayInv sees size cells file [] (replayEntered fd file p) ⟨cells, []⟩ := by
  have hinit : ReplayInv sees size cells file [] (replayInit fd file p) ⟨cells, []⟩ :=
    replayInit_inv hpos fd file hp
  obtain ⟨hseen, -, hflow, hsettled, hwhole, htorn, hcells, hlosses, -⟩ := hinit
  refine ⟨hseen, fun hne => absurd rfl hne, hflow, hsettled, hwhole, htorn, hcells, hlosses, ?_⟩
  intro _ hin
  cases hin

theorem unstopped_invariant [DecidableEq E] (hpipe : pipe.Lawful sees) (hpos : 0 < size)
    (hsize : size < 2 ^ 31) {fd : ℤ} (hfd : fd ≠ -1) {p : P} (hp : sees p [] ⟨cells, []⟩)
    (h : Exec (replayStep pipe size) LeftAlone (replayEntered fd file p) es s) :
    (∃ v, ReplayInv sees size cells file es s v) ∧ Unstopped fd s ∧ stopCalls es = 0 := by
  refine h.invariant (fun es s => (∃ v, ReplayInv sees size cells file es s v) ∧ Unstopped fd s ∧
    stopCalls es = 0) ?_ ?_
  · refine ⟨⟨_, replayEntered_inv hpos fd file hp⟩, ⟨rfl, ?_, ?_, ?_⟩, rfl⟩
    · intro hin
      cases hin
    · intro hpc
      cases hpc
    · rintro (hpc | ⟨reason, hpc⟩) <;> cases hpc
  · rintro es s a t e ⟨⟨v, hi⟩, hu, hstops⟩ hok hs
    obtain ⟨hu', hsame⟩ := hu.step hpipe hsize hfd hi hok hs
    exact ⟨hi.step hpipe hpos hsize hs, hu', hsame.trans hstops⟩

/-! ## What it pushes -/

/-- Whole records at the beginning of a file are the first that it reads as. -/
theorem reads_flatten_append (hpos : 0 < size) (hsize : size < 2 ^ 31)
    {records : List (List UInt8)} (hwhole : ∀ r ∈ records, r.length = size) {rest : List UInt8}
    {rs : List (List UInt8)} (h : Reads size (records.flatten ++ rest) rs) :
    ∃ more, rs = records ++ more ∧ Reads size rest more := by
  induction records generalizing rs with
  | nil => exact ⟨rs, rfl, h⟩
  | cons r records ih =>
    have hr := hwhole r List.mem_cons_self
    rw [List.flatten_cons, List.append_assoc] at h
    obtain ⟨rs', rfl, hrest⟩ := h.inv hpos hsize (by rw [List.length_append]; omega)
    rw [List.drop_left' hr] at hrest
    obtain ⟨more, rfl, hmore⟩ := ih (fun q hq => hwhole q (List.mem_cons_of_mem r hq)) hrest
    exact ⟨more, by rw [List.take_left' hr, List.cons_append], hmore⟩

theorem pushed_of_none_lost (h : lostRecords es = []) :
    pushedRecords es = (settledRecords es).map Prod.fst := by
  have hall : ∀ r ∈ settledRecords es, r.2 = true := by
    intro r hr
    by_contra hne
    have hmem : r.1 ∈ lostRecords es :=
      List.mem_map.mpr ⟨r, List.mem_filter.mpr ⟨hr, by simpa using hne⟩, rfl⟩
    rw [h] at hmem
    cases hmem
  rw [pushedRecords, List.filter_eq_self.mpr hall]

/-- What has been pushed are the first records that the file reads as, and at the end all of them.
-/
theorem ReplayInv.pushed_reads (hpos : 0 < size) (hsize : size < 2 ^ 31)
    (hi : ReplayInv sees size cells file es s v) {fd : ℤ} (hu : Unstopped fd s)
    (hstop : stopCalls es = 0) {records : List (List UInt8)} (hreads : Reads size file records) :
    pushedRecords es <+: records ∧ (s.pc = .outside → pushedRecords es = records) := by
  have hlost : lostRecords es = [] := by
    have hle := hi.losses
    exact List.length_eq_zero_iff.mp (by omega)
  have hread : pushedRecords es ++ s.pc.inHand = readRecords es := by
    rw [pushed_of_none_lost hlost]
    exact hi.settled
  obtain ⟨torn, hfile, htorn, -⟩ := hi.torn
  rw [hfile, List.append_assoc] at hreads
  obtain ⟨more, rfl, hmore⟩ := reads_flatten_append hpos hsize hi.whole hreads
  rw [← hread]
  refine ⟨⟨s.pc.inHand ++ more, by rw [List.append_assoc]⟩, fun hout => ?_⟩
  rw [hu.done (.inl hout), List.append_nil] at hmore
  rw [hmore.unique (reads_of_short (by omega) (.inl htorn)), hout, List.append_nil]
  exact (List.append_nil _).symm

/-! ## Its end -/

def ReplayAction.isIo : ReplayAction E → Bool
  | .io => true
  | _ => false

/-- The accesses left if nothing has to be tried again: four for each record, and those of the way
to the first and from the last. -/
def ReplaySystem.accessesLeft (size : ℕ) (s : ReplaySystem P E) : ℕ :=
  4 * (s.unread.length / size) + match s.pc with
    | .outside => 0
    | .checkFd => 6
    | .setRunning => 5
    | .test => 4
    | .make => 3
    | .read _ => 2
    | .push _ _ => 5
    | .waiting _ _ => 6
    | .finish _ => 1

/-- A retry costs two accesses more. -/
theorem accessesLeft_step [DecidableEq E] (hpos : 0 < size) (hsize : size < 2 ^ 31)
    {a : ReplayAction E} (hok : LeftAlone s a) (hs : replayStep pipe size s a = some (t, e)) :
    a.isIo.toNat + t.accessesLeft size ≤
      s.accessesLeft size + 2 * (e == ReplayEvent.retried).toNat := by
  cases a with
  | callRun => cases hok.2
  | stop => cases hok.1
  | pop =>
    simp only [replayStep] at hs
    split at hs <;> cases hs <;> simp [ReplayAction.isIo, ReplaySystem.accessesLeft]
  | drop ev =>
    simp only [replayStep] at hs
    split_ifs at hs
    cases hs
    simp [ReplayAction.isIo, ReplaySystem.accessesLeft]
  | io =>
    simp only [ReplayAction.isIo, Bool.toNat_true]
    cases hpc : s.pc with
    | read ev =>
      rcases read_cases hs hpc with ⟨hwhole, rfl, rfl⟩ | ⟨hwhole, rfl, reason, rfl⟩
      · have hlen := read_whole hsize hwhole
        rw [List.length_take] at hlen
        have hdiv := Nat.div_eq_sub_div hpos (show size ≤ s.unread.length by omega)
        simp only [ReplaySystem.accessesLeft, hpc, List.length_drop]
        omega
      · have hnil := List.drop_eq_nil_of_le (read_short hsize hwhole).le
        simp only [ReplaySystem.accessesLeft, hpc, hnil, List.length_nil, Nat.zero_div]
        omega
    | outside => simp [replayStep, replayIo, hpc] at hs
    | checkFd | test | waiting =>
      simp only [replayStep, replayIo, hpc] at hs
      split_ifs at hs <;> cases hs <;> simp only [ReplaySystem.accessesLeft, hpc] <;> omega
    | setRunning | finish =>
      simp only [replayStep, replayIo, hpc] at hs
      cases hs
      simp only [ReplaySystem.accessesLeft, hpc]
      omega
    | make | push =>
      simp only [replayStep, replayIo, hpc] at hs
      split at hs
      all_goals
        cases hs
        simp only [ReplaySystem.accessesLeft, hpc, beq_self_eq_true, Bool.toNat_true]
        omega

/-- The thread can go on until it is outside. -/
theorem replayIo_isSome (hpc : s.pc ≠ .outside) : (replayIo pipe size s).isSome := by
  cases hat : s.pc with
  | outside => exact absurd hat hpc
  | setRunning | finish => simp [replayIo, hat]
  | checkFd | test | make | read | push | waiting =>
    simp only [replayIo, hat]
    repeat' split
    all_goals rfl

/-- From the sink through the file to the Core, over any lawful pipe: when the bytes of short writes
come behind every complete write and are together fewer than a record, a replay that is called and
not stopped gives the Core the events that `durable_sink` counted, in order, and at its end all of
them; and it comes to its end, after four accesses for each record, two for each refusal of the pool
or the conduit, and six more at most. -/
theorem log_round_trip [DecidableEq E] (hpipe : pipe.Lawful sees) (hpos : 0 < size)
    (hsize : size < 2 ^ 31) (cells : ℕ) {fd sourceFd : ℤ} (hfd : fd ≠ -1) (hsource : sourceFd ≠ -1)
    (calls : List (Call size)) (haligned : Aligned (writeOutcomes calls)) (p : P)
    (hp : sees p [] ⟨cells, []⟩) (as : List (ReplayAction E)) (es : List ReplayEvent)
    (s : ReplaySystem P E)
    (h : run (replayStep pipe size) LeftAlone
      (replayEntered sourceFd (runSink ⟨fd, 0, []⟩ calls).1.file p) as = some (es, s)) :
    (∃ v, sees s.core s.handles v ∧
      poppedRecords es ++ v.queue <+: (runSink ⟨fd, 0, []⟩ calls).2.map (·.val) ∧
      (s.pc = .outside →
        poppedRecords es ++ v.queue = (runSink ⟨fd, 0, []⟩ calls).2.map (·.val))) ∧
    as.countP ReplayAction.isIo ≤
      4 * ((runSink ⟨fd, 0, []⟩ calls).1.file.length / size) + 6 + 2 * es.count .retried ∧
    (s.pc ≠ .outside → (replayStep pipe size s .io).isSome) := by
  have hfile : (runSink ⟨fd, 0, []⟩ calls).1.file = logFile calls := by
    rw [runSink_file hfd]
    rfl
  have hcounted : (runSink ⟨fd, 0, []⟩ calls).2.map (·.val) = completeRecords calls := by
    rw [runSink_counted hpos (by omega) hfd, if_pos hsize]
    rfl
  rw [hfile] at h ⊢
  rw [hcounted]
  obtain ⟨⟨v, hi⟩, hu, hstop⟩ := unstopped_invariant hpipe hpos hsize hsource hp (exec_of_run h)
  have hpushed := hi.pushed_reads hpos hsize hu hstop (reads_of_aligned hpos hsize haligned)
  refine ⟨⟨v, hi.seen, ?_⟩, ?_, replayIo_isSome⟩
  · rw [hi.flow]
    exact hpushed
  · have hwithin := run_within_credit ReplayAction.isIo (· == ReplayEvent.retried)
      (ReplaySystem.accessesLeft size) 2 (fun _ _ _ _ => accessesLeft_step hpos hsize) h
    have hstart : (replayEntered sourceFd (logFile calls) p : ReplaySystem P E).accessesLeft size =
        4 * ((logFile calls).length / size) + 6 := rfl
    rw [hstart] at hwithin
    exact (Nat.le_add_right _ _).trans hwithin

end RoundTrip

/-- Two complete writes and a short one. -/
def threeWrites : List (Call 2) :=
  [⟨some ⟨[7, 8], rfl⟩, .full⟩, ⟨some ⟨[9, 6], rfl⟩, .full⟩, ⟨some ⟨[1, 2], rfl⟩, .short 1⟩]

/-- The three writes replayed through a conduit with room for one event. -/
theorem log_round_trip_two :
    ∃ (as : List (ReplayAction ℕ)) (es : List ReplayEvent)
      (s : ReplaySystem (PooledConduit (List UInt8) 2) ℕ),
      run (replayStep (pooledPipe _ 2 0#64) 2) LeftAlone
        (replayEntered 4 (runSink ⟨3, 0, []⟩ threeWrites).1.file tinyCore) as = some (es, s) ∧
      as.countP ReplayAction.isIo ≤ 4 * (5 / 2) + 6 + 2 * es.count .retried ∧
      (∃ v, s.core.SeenAs 2 s.handles v ∧
        poppedRecords es ++ v.queue = (runSink ⟨3, 0, []⟩ threeWrites).2.map (·.val)) ∧
      (runSink ⟨3, 0, []⟩ threeWrites).2.map (·.val) = [[7, 8], [9, 6]] := by
  have haligned : Aligned (writeOutcomes threeWrites) := by
    show Aligned [(.full : Outcome 2), .full, .short 1]
    rw [aligned_cons_of_stray_zero rfl, aligned_cons_of_stray_zero rfl,
      aligned_cons_of_stray_pos (by decide)]
    decide
  have h : run (replayStep (pooledPipe _ 2 0#64) 2) LeftAlone
      (replayEntered 4 (runSink ⟨3, 0, []⟩ threeWrites).1.file tinyCore)
      [.io, .io, .io, .io, .io, .io, .io, .io, .io, .io, .pop, .io, .io, .io, .io, .drop 0, .io,
        .io, .io, .io] = some (_, _) := rfl
  obtain ⟨⟨v, hseen, -, hall⟩, hwithin, -⟩ := log_round_trip
    (pooledPipe_lawful (show 2 ≤ 2 ^ 32 - 1 by decide) 0#64) (by decide) (by decide) 2
    (by decide) (by decide) threeWrites haligned tinyCore
    (init_seenAs Nat.two_pos (by decide) (by decide) _) _ _ _ h
  exact ⟨_, _, _, h, hwithin, ⟨v, hseen, hall rfl⟩, rfl⟩

end ConduitRuntime.Storage
