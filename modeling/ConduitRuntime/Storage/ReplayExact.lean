import ConduitRuntime.Storage.DurableLog

/-! Which write outcomes a replay survives. Records carry no framing, so the bytes of a short write
must not be followed by a counted record, and must never add up to one. -/
namespace ConduitRuntime.Storage
set_option autoImplicit false

section Replay
variable {size : ℕ}

/-- What a call's write does, `none` for a null event pointer. -/
def Call.shape (c : Call size) : Option (Outcome size) := c.event.map fun _ => c.outcome

/-- The bytes an outcome leaves in the file that belong to no counted record. -/
def Outcome.stray : Outcome size → ℕ
  | .short n => n
  | _ => 0

def strayBytes (os : List (Outcome size)) : ℕ := (os.map Outcome.stray).sum

/-- No stray byte comes before a complete write, and all of them together are less than a record. -/
def Aligned (os : List (Outcome size)) : Prop :=
  strayBytes os < size ∧ ∀ pre post, os = pre ++ .full :: post → strayBytes pre = 0

theorem strayBytes_cons (o : Outcome size) (os : List (Outcome size)) :
    strayBytes (o :: os) = o.stray + strayBytes os := by
  simp [strayBytes]

theorem aligned_cons_of_stray_zero {o : Outcome size} {os : List (Outcome size)}
    (ho : o.stray = 0) :
    Aligned (o :: os) ↔ Aligned os := by
  have hbytes : ∀ os : List (Outcome size), strayBytes (o :: os) = strayBytes os := by
    intro os
    rw [strayBytes_cons, ho, Nat.zero_add]
  unfold Aligned
  rw [hbytes]
  constructor
  · rintro ⟨hlt, hpre⟩
    refine ⟨hlt, fun pre post he => ?_⟩
    have := hpre (o :: pre) post (by rw [he, List.cons_append])
    rwa [hbytes] at this
  · rintro ⟨hlt, hpre⟩
    refine ⟨hlt, fun pre post he => ?_⟩
    cases pre with
    | nil => rfl
    | cons o' pre =>
      obtain ⟨rfl, hrest⟩ := List.cons.inj he
      rw [hbytes]
      exact hpre pre post hrest

theorem aligned_cons_of_stray_pos {o : Outcome size} {os : List (Outcome size)}
    (ho : 0 < o.stray) :
    Aligned (o :: os) ↔ .full ∉ os ∧ o.stray + strayBytes os < size := by
  unfold Aligned
  rw [strayBytes_cons]
  constructor
  · rintro ⟨hlt, hpre⟩
    refine ⟨fun hm => ?_, hlt⟩
    obtain ⟨pre, post, rfl⟩ := List.append_of_mem hm
    have := hpre (o :: pre) post rfl
    rw [strayBytes_cons] at this
    omega
  · rintro ⟨hnot, hlt⟩
    refine ⟨hlt, fun pre post he => ?_⟩
    cases pre with
    | nil => rfl
    | cons o' pre =>
      obtain ⟨rfl, rfl⟩ := List.cons.inj he
      exact absurd (by simp) hnot

/-! ## The file and the counted records -/

def logFile (calls : List (Call size)) : List UInt8 := (calls.map Call.appended).flatten

def completeRecords (calls : List (Call size)) : List (List UInt8) :=
  (calls.map Call.complete).flatten

/-- The outcomes of the calls that write. -/
def writeOutcomes (calls : List (Call size)) : List (Outcome size) :=
  (calls.map Call.shape).reduceOption

theorem writeOutcomes_null {c : Call size} (hc : c.event = none) (cs : List (Call size)) :
    writeOutcomes (c :: cs) = writeOutcomes cs ∧ logFile (c :: cs) = logFile cs ∧
      completeRecords (c :: cs) = completeRecords cs := by
  simp [writeOutcomes, logFile, completeRecords, Call.shape, Call.appended, Call.complete, hc,
    List.reduceOption]

theorem writeOutcomes_some {c : Call size} {r : Record size} (hc : c.event = some r)
    (cs : List (Call size)) : writeOutcomes (c :: cs) = c.outcome :: writeOutcomes cs := by
  simp [writeOutcomes, Call.shape, hc, List.reduceOption]

theorem logFile_cons (c : Call size) (cs : List (Call size)) :
    logFile (c :: cs) = c.appended ++ logFile cs := by
  simp [logFile]

theorem completeRecords_cons (c : Call size) (cs : List (Call size)) :
    completeRecords (c :: cs) = c.complete ++ completeRecords cs := by
  simp [completeRecords]

theorem appended_length {c : Call size} {r : Record size} (hc : c.event = some r)
    (ho : c.outcome ≠ .full) : c.appended.length = c.outcome.stray := by
  have hr := r.property
  cases hout : c.outcome with
  | full => exact absurd hout ho
  | short n =>
    have hn := n.isLt
    simp only [Call.appended, hc, hout, osWrite, Outcome.stray, List.length_take, hr]
    omega
  | failed => simp [Call.appended, hc, hout, osWrite, Outcome.stray]

/-- Without a complete write the file is stray bytes only. -/
theorem no_complete_write {calls : List (Call size)} (h : .full ∉ writeOutcomes calls) :
    completeRecords calls = [] ∧ (logFile calls).length = strayBytes (writeOutcomes calls) := by
  induction calls with
  | nil => exact ⟨rfl, rfl⟩
  | cons c cs ih =>
    cases hc : c.event with
    | none =>
      obtain ⟨ho, hf, hr⟩ := writeOutcomes_null hc cs
      rw [ho] at h
      rw [ho, hf, hr]
      exact ih h
    | some r =>
      rw [writeOutcomes_some hc] at h ⊢
      have hfull : c.outcome ≠ .full := fun he => h (by simp [he])
      obtain ⟨hrs, hlen⟩ := ih fun hm => h (List.mem_cons_of_mem _ hm)
      rw [completeRecords_cons, complete_of_ne_full hfull, hrs, logFile_cons, List.length_append,
        appended_length hc hfull, hlen, strayBytes_cons]
      exact ⟨rfl, rfl⟩

/-! ## Aligned logs replay -/

theorem reads_of_aligned (hpos : 0 < size) (hsize : size < 2 ^ 31) {calls : List (Call size)}
    (h : Aligned (writeOutcomes calls)) : Reads size (logFile calls) (completeRecords calls) := by
  induction calls with
  | nil => exact reads_of_short (by omega) (.inl hpos)
  | cons c cs ih =>
    cases hc : c.event with
    | none =>
      obtain ⟨ho, hf, hr⟩ := writeOutcomes_null hc cs
      rw [ho] at h
      rw [hf, hr]
      exact ih h
    | some r =>
      rw [writeOutcomes_some hc] at h
      rw [logFile_cons, completeRecords_cons]
      by_cases hfull : c.outcome = .full
      · rw [hfull, aligned_cons_of_stray_zero rfl] at h
        have happ : c.appended = r.val := by
          simp [Call.appended, hc, hfull, osWrite]
        have hcom : c.complete = [r.val] := by
          simp [Call.complete, hc, hfull]
        rw [happ, hcom]
        exact (reads_append_iff hpos hsize r _ _).mpr (ih h)
      · have hlen := appended_length hc hfull
        rw [complete_of_ne_full hfull, List.nil_append]
        by_cases hstray : c.outcome.stray = 0
        · rw [aligned_cons_of_stray_zero hstray] at h
          rw [List.length_eq_zero_iff.mp (hlen.trans hstray), List.nil_append]
          exact ih h
        · rw [aligned_cons_of_stray_pos (by omega)] at h
          obtain ⟨hrs, hflen⟩ := no_complete_write h.1
          rw [hrs]
          refine reads_of_short (by omega) (.inl ?_)
          rw [List.length_append, hlen, hflen]
          exact h.2

/-! ## Contents that tell stray bytes from records -/

def constant (size : ℕ) (b : UInt8) : Record size := ⟨List.replicate size b, List.length_replicate⟩

/-- Complete writes write ones, all others write zeros. -/
def sampleCall : Option (Outcome size) → Call size
  | none => ⟨none, .failed⟩
  | some .full => ⟨some (constant size 1), .full⟩
  | some o => ⟨some (constant size 0), o⟩

theorem sampleCall_shape (o : Option (Outcome size)) : (sampleCall o).shape = o := by
  rcases o with _ | _ | n | _ <;> rfl

theorem sampleCall_complete (o : Option (Outcome size)) :
    (sampleCall o).complete = if o = some .full then [List.replicate size 1] else [] := by
  rcases o with _ | _ | n | _ <;> simp [sampleCall, Call.complete, constant]

theorem sample_writeOutcomes (shapes : List (Option (Outcome size))) :
    writeOutcomes (shapes.map sampleCall) = shapes.reduceOption := by
  rw [writeOutcomes, List.map_map]
  congr 1
  rw [show Call.shape ∘ sampleCall = id from funext sampleCall_shape, List.map_id]

theorem sample_record {shapes : List (Option (Outcome size))} {r : List UInt8}
    (hr : r ∈ completeRecords (shapes.map sampleCall)) : r = List.replicate size 1 := by
  rw [completeRecords, List.map_map, List.mem_flatten] at hr
  obtain ⟨rs, hrs, hr⟩ := hr
  obtain ⟨o, _, rfl⟩ := List.mem_map.mp hrs
  rw [Function.comp_apply, sampleCall_complete] at hr
  split at hr
  · exact List.mem_singleton.mp hr
  · cases hr

theorem complete_of_full {calls : List (Call size)} (h : .full ∈ writeOutcomes calls) :
    completeRecords calls ≠ [] := by
  induction calls with
  | nil => cases h
  | cons c cs ih =>
    rw [completeRecords_cons]
    cases hc : c.event with
    | none =>
      rw [(writeOutcomes_null hc cs).1] at h
      simp [ih h]
    | some r =>
      rw [writeOutcomes_some hc] at h
      rcases List.mem_cons.mp h with he | hm
      · simp [Call.complete, hc, ← he]
      · simp [ih hm]

theorem ones_ne_take {m n : ℕ} (hm : 0 < m) (hn : 0 < n) {rest : List UInt8} :
    List.replicate m 1 ≠ (List.replicate n 0 ++ rest).take m := by
  cases m with
  | zero => omega
  | succ m =>
    cases n with
    | zero => omega
    | succ n =>
      intro he
      have hhead := congrArg List.head? he
      simp [List.replicate_succ] at hhead

theorem aligned_of_reads (hpos : 0 < size) (hsize : size < 2 ^ 31)
    {shapes : List (Option (Outcome size))}
    (h : Reads size (logFile (shapes.map sampleCall)) (completeRecords (shapes.map sampleCall))) :
    Aligned shapes.reduceOption := by
  induction shapes with
  | nil => exact ⟨hpos, fun pre post he => by simp at he⟩
  | cons o shapes ih =>
    rw [List.map_cons, logFile_cons, completeRecords_cons] at h
    rcases o with _ | _ | n | _
    · exact ih h
    · rw [List.reduceOption_cons_of_some, aligned_cons_of_stray_zero rfl]
      exact ih ((reads_append_iff hpos hsize (constant size 1) _ _).mp h)
    · rw [List.reduceOption_cons_of_some]
      have happ : (sampleCall (some (.short n))).appended = List.replicate n 0 := by
        simp [sampleCall, Call.appended, osWrite, constant]
      have hcom : (sampleCall (some (.short n))).complete = [] := rfl
      rw [happ, hcom, List.nil_append] at h
      by_cases hn : (n : ℕ) = 0
      · rw [aligned_cons_of_stray_zero (o := .short n) hn]
        rw [hn, List.replicate_zero, List.nil_append] at h
        exact ih h
      · rw [aligned_cons_of_stray_pos (o := .short n) (Nat.pos_of_ne_zero hn),
          ← sample_writeOutcomes]
        have hnone : .full ∉ writeOutcomes (shapes.map sampleCall) := by
          intro hm
          obtain ⟨r, rs, hrs⟩ := List.exists_cons_of_ne_nil (complete_of_full hm)
          have hones : r = List.replicate size 1 := sample_record (by rw [hrs]; simp)
          rw [hrs] at h
          exact ones_ne_take hpos (Nat.pos_of_ne_zero hn) (hones.symm.trans (h.head_eq hpos hsize))
        obtain ⟨hrs, hlen⟩ := no_complete_write hnone
        rw [hrs] at h
        have hlt := h.lt_of_nil hpos hsize
        rw [List.length_append, List.length_replicate, hlen] at hlt
        exact ⟨hnone, hlt⟩
    · rw [List.reduceOption_cons_of_some, aligned_cons_of_stray_zero rfl]
      exact ih h

/-! ## The round trip -/

/-- For a given sequence of write outcomes, a replay pushes exactly the counted events whatever
their contents if and only if the outcomes are aligned, or a record is so large that an `int`
cannot count it and nothing is ever counted or pushed. -/
theorem durable_log_replay {size : ℕ} (hpos : 1 ≤ size) (hsize : size < 2 ^ 63) {fd sourceFd : ℤ}
    (hfd : fd ≠ -1) (hsource : sourceFd ≠ -1) (shapes : List (Option (Outcome size))) :
    (∀ calls : List (Call size), calls.map Call.shape = shapes →
      ∃ ending, runReplay size sourceFd (runSink ⟨fd, 0, []⟩ calls).1.file =
        some ((runSink ⟨fd, 0, []⟩ calls).2.map (·.val), ending)) ↔
      Aligned shapes.reduceOption ∨ 2 ^ 31 ≤ size := by
  have hrun : ∀ calls : List (Call size),
      (runSink ⟨fd, 0, []⟩ calls).1.file = logFile calls := fun calls => runSink_file hfd calls
  have hcounted : ∀ calls : List (Call size), (runSink ⟨fd, 0, []⟩ calls).2.map (·.val) =
      if size < 2 ^ 31 then completeRecords calls else [] :=
    fun calls => runSink_counted hpos hsize hfd calls
  have hreplay : ∀ file, runReplay size sourceFd file = replayLoop size (file.length + 1) file :=
    fun file => if_neg hsource
  simp only [hrun, hcounted, hreplay]
  by_cases hbig : size < 2 ^ 31
  · simp only [hbig, if_true]
    constructor
    · intro h
      left
      apply aligned_of_reads hpos hbig
      obtain ⟨rs, hr⟩ := reads_exists hpos hbig (logFile (shapes.map sampleCall))
      obtain ⟨ending, he⟩ := h (shapes.map sampleCall) (by
        rw [List.map_map, show Call.shape ∘ sampleCall = id from funext sampleCall_shape,
          List.map_id])
      obtain ⟨ending', he'⟩ := hr _ (Nat.lt_succ_self _)
      rw [he] at he'
      rw [(Prod.mk.inj (Option.some.inj he')).1]
      exact hr
    · rintro (h | h) calls rfl
      · exact reads_of_aligned hpos hbig h _ (Nat.lt_succ_self _)
      · omega
  · simp only [hbig, if_false]
    refine iff_of_true (fun calls _ => ?_) (.inr (by omega))
    exact reads_of_short hsize (.inr (by omega)) _ (Nat.lt_succ_self _)

end Replay

/-- A null event, a complete record, a failed write, and a short write at the end. -/
theorem durable_log_replay_truncated_end :
    ∃ ending, runReplay 2 4 (runSink ⟨3, 0, []⟩ [⟨none, .failed⟩, ⟨some ⟨[7, 8], rfl⟩, .full⟩,
        ⟨some ⟨[1, 2], rfl⟩, .failed⟩, ⟨some ⟨[9, 6], rfl⟩, .short 1⟩]).1.file =
      some ([[7, 8]], ending) := by
  have haligned : Aligned [(.full : Outcome 2), .failed, .short 1] := by
    rw [aligned_cons_of_stray_zero rfl, aligned_cons_of_stray_zero rfl,
      aligned_cons_of_stray_pos (by decide)]
    exact ⟨by decide, by decide⟩
  exact (durable_log_replay (by decide) (by decide) (by decide) (by decide)
    [none, some .full, some .failed, some (.short 1)]).mpr (.inl haligned) _ rfl

/-- One byte of a first record reaches the file and the next record is written whole: the replay
pushes a record that was never written and loses the one that was. -/
theorem short_write_shifts_records :
    (runSink ⟨3, 0, []⟩ [⟨some ⟨[1, 2], rfl⟩, .short 1⟩, ⟨some ⟨[3, 4], rfl⟩, .full⟩]).2.map
        (·.val) = [[3, 4]] ∧
    runReplay 2 4 (runSink ⟨3, 0, []⟩ [⟨some ⟨[1, 2], rfl⟩, .short 1⟩,
        ⟨some ⟨[3, 4], rfl⟩, .full⟩]).1.file = some ([[1, 3]], .corruptedRead) := by
  decide

end ConduitRuntime.Storage
