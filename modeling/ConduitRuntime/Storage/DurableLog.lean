import Mathlib.Data.BitVec
import Mathlib.Data.List.Basic
import Mathlib.Data.List.ReduceOption
import Mathlib.Tactic.Common

/-! `durable_sink` and `durable_source`: raw records appended to a file without framing, and read
back in blocks of the same size. A short write shifts every record behind it. -/
namespace ConduitRuntime.Storage
set_option autoImplicit false

/-- The bytes of an event. -/
def Record (size : ℕ) : Type := { bytes : List UInt8 // bytes.length = size }

/-- What the operating system makes of one `write` call. -/
inductive Outcome (size : ℕ)
  | full
  | short (n : Fin size)
  | failed
  deriving DecidableEq

section Storage
variable {size : ℕ}

/-- The value `write` returns and the bytes it appends. -/
def osWrite (r : Record size) : Outcome size → ℤ × List UInt8
  | .full => (size, r.val)
  | .short n => (n, r.val.take n)
  | .failed => (-1, [])

/-- The value of an `int` that a wider result was stored in. -/
def toInt (r : ℤ) : ℤ := Int.bmod r (2 ^ 32)

/-- `written == size`: the `int` is converted to `size_t` first. -/
def equalsSize (written : ℤ) (size : ℕ) : Bool := decide (written % 2 ^ 64 = size)

/-- A sink together with the file it appends to. -/
structure Sink where
  fd : ℤ
  bytesWritten : BitVec 64
  file : List UInt8

/-- `durable_sink::on`; the event pointer may be null. -/
def Sink.on (s : Sink) (ev : Option (Record size)) (outcome : Outcome size) : Sink :=
  match ev with
  | none => s
  | some r =>
    if s.fd = -1 then s
    else
      let (result, appended) := osWrite r outcome
      let written := toInt result
      let s := { s with file := s.file ++ appended }
      if equalsSize written size then
        { s with bytesWritten := s.bytesWritten + BitVec.ofNat 64 size }
      else s

structure Call (size : ℕ) where
  event : Option (Record size)
  outcome : Outcome size

/-- The sink after the calls, and the events whose write `bytes_written_` counted. -/
def runSink (s : Sink) : List (Call size) → Sink × List (Record size)
  | [] => (s, [])
  | c :: cs =>
    let t := s.on c.event c.outcome
    let (u, counted) := runSink t cs
    (u, (if t.bytesWritten ≠ s.bytesWritten then c.event.toList else []) ++ counted)

/-- How a replay ends. -/
inductive ReplayEnd
  | notOpen
  | endOfFile
  | corruptedRead
  deriving DecidableEq

/-- The loop of `run_replay`, where the domain always has memory and the conduit always accepts:
the records pushed and the reason it stopped. -/
def replayLoop (size : ℕ) : ℕ → List UInt8 → Option (List (List UInt8) × ReplayEnd)
  | 0, _ => none
  | fuel + 1, file =>
    let buffer := file.take size
    let bytesRead := toInt buffer.length
    if equalsSize bytesRead size then
      (replayLoop size fuel (file.drop size)).map fun r => (buffer :: r.1, r.2)
    else if bytesRead = 0 then some ([], .endOfFile)
    else some ([], .corruptedRead)

def runReplay (size : ℕ) (fd : ℤ) (file : List UInt8) : Option (List (List UInt8) × ReplayEnd) :=
  if fd = -1 then some ([], .notOpen) else replayLoop size (file.length + 1) file

/-! ## The comparisons through `int` -/

theorem equalsSize_iff (hsize : size < 2 ^ 63) {r : ℤ} (hlo : -1 ≤ r) (hhi : r ≤ size) :
    equalsSize (toInt r) size = true ↔ r = size ∧ size < 2 ^ 31 := by
  rw [equalsSize, decide_eq_true_iff, toInt, Int.bmod]
  split <;> omega

/-! ## Reading back -/

theorem replay_short (hsize : size < 2 ^ 63) {file : List UInt8} (fuel : ℕ)
    (h : file.length < size ∨ 2 ^ 31 ≤ size) :
    ∃ ending, replayLoop size (fuel + 1) file = some ([], ending) := by
  have hlen : (file.take size).length ≤ size := by simp
  have hne : ¬ equalsSize (toInt (file.take size).length) size = true := by
    rw [equalsSize_iff hsize (by omega) (by omega)]
    simp only [List.length_take] at hlen ⊢
    omega
  unfold replayLoop
  rw [if_neg hne]
  split
  · exact ⟨_, rfl⟩
  · exact ⟨_, rfl⟩

theorem replay_block (hsize : size < 2 ^ 31) {file : List UInt8} (fuel : ℕ)
    (h : size ≤ file.length) :
    replayLoop size (fuel + 1) file =
      (replayLoop size fuel (file.drop size)).map fun r => (file.take size :: r.1, r.2) := by
  have hlen : (file.take size).length = size := by simp [h]
  have he : equalsSize (toInt (file.take size).length) size = true := by
    rw [equalsSize_iff (by omega) (by omega) (by omega), hlen]
    exact ⟨rfl, hsize⟩
  rw [replayLoop, if_pos he]

/-- However much fuel beyond the file's length it gets, a replay pushes `records`. -/
def Reads (size : ℕ) (file : List UInt8) (records : List (List UInt8)) : Prop :=
  ∀ fuel, file.length < fuel → ∃ ending, replayLoop size fuel file = some (records, ending)

theorem reads_of_short (hsize : size < 2 ^ 63) {file : List UInt8}
    (h : file.length < size ∨ 2 ^ 31 ≤ size) : Reads size file [] := by
  intro fuel hfuel
  obtain ⟨fuel, rfl⟩ : ∃ k, fuel = k + 1 := ⟨fuel - 1, by omega⟩
  exact replay_short hsize fuel h

theorem Reads.unique {file : List UInt8} {rs rs' : List (List UInt8)} (h : Reads size file rs)
    (h' : Reads size file rs') : rs = rs' := by
  obtain ⟨e, he⟩ := h (file.length + 1) (by omega)
  obtain ⟨e', he'⟩ := h' (file.length + 1) (by omega)
  rw [he] at he'
  exact (Prod.mk.inj (Option.some.inj he')).1

theorem Reads.cons (hpos : 0 < size) (hsize : size < 2 ^ 31) {file : List UInt8}
    {rs : List (List UInt8)} (hlen : size ≤ file.length) (h : Reads size (file.drop size) rs) :
    Reads size file (file.take size :: rs) := by
  intro fuel hfuel
  obtain ⟨fuel, rfl⟩ : ∃ k, fuel = k + 1 := ⟨fuel - 1, by omega⟩
  obtain ⟨ending, he⟩ := h fuel (by rw [List.length_drop]; omega)
  exact ⟨ending, by rw [replay_block hsize fuel hlen, he]; rfl⟩

theorem reads_exists (hpos : 0 < size) (hsize : size < 2 ^ 31) (file : List UInt8) :
    ∃ rs, Reads size file rs := by
  induction hn : file.length using Nat.strong_induction_on generalizing file with
  | _ n ih =>
    by_cases hlen : size ≤ file.length
    · obtain ⟨rs, hr⟩ := ih (file.drop size).length (by rw [List.length_drop]; omega) _ rfl
      exact ⟨_, hr.cons hpos hsize hlen⟩
    · exact ⟨[], reads_of_short (by omega) (.inl (by omega))⟩

/-- A file of at least one record: the first block is pushed and the rest is replayed. -/
theorem Reads.inv (hpos : 0 < size) (hsize : size < 2 ^ 31) {file : List UInt8}
    {rs : List (List UInt8)} (hlen : size ≤ file.length) (h : Reads size file rs) :
    ∃ rs', rs = file.take size :: rs' ∧ Reads size (file.drop size) rs' := by
  obtain ⟨rs', hr⟩ := reads_exists hpos hsize (file.drop size)
  exact ⟨rs', h.unique (hr.cons hpos hsize hlen), hr⟩

theorem Reads.lt_of_nil (hpos : 0 < size) (hsize : size < 2 ^ 31) {file : List UInt8}
    (h : Reads size file []) : file.length < size := by
  by_contra hlen
  obtain ⟨rs', he, _⟩ := h.inv hpos hsize (by omega)
  cases he

theorem Reads.head_eq (hpos : 0 < size) (hsize : size < 2 ^ 31) {file r : List UInt8}
    {rs : List (List UInt8)} (h : Reads size file (r :: rs)) : r = file.take size := by
  by_cases hlen : size ≤ file.length
  · obtain ⟨rs', he, _⟩ := h.inv hpos hsize hlen
    exact (List.cons.inj he).1
  · cases h.unique (reads_of_short (by omega) (.inl (by omega)))

theorem reads_append_iff (hpos : 0 < size) (hsize : size < 2 ^ 31) (r : Record size)
    (file : List UInt8) (rs : List (List UInt8)) :
    Reads size (r.val ++ file) (r.val :: rs) ↔ Reads size file rs := by
  have htake : (r.val ++ file).take size = r.val := List.take_left' r.property
  have hdrop : (r.val ++ file).drop size = file := List.drop_left' r.property
  have hlen : size ≤ (r.val ++ file).length := by
    rw [List.length_append, r.property]
    omega
  constructor
  · intro h
    obtain ⟨rs', he, hr⟩ := h.inv hpos hsize hlen
    rw [hdrop] at hr
    rw [(List.cons.inj he).2]
    exact hr
  · intro h
    have hr := Reads.cons hpos hsize hlen (hdrop.symm ▸ h)
    rw [htake] at hr
    exact hr

/-! ## What the calls append and count -/

/-- The bytes a call appends. -/
def Call.appended (c : Call size) : List UInt8 :=
  match c.event with
  | none => []
  | some r => (osWrite r c.outcome).2

/-- The event of a call whose write is complete. -/
def Call.complete (c : Call size) : List (List UInt8) :=
  match c.event, c.outcome with
  | some r, .full => [r.val]
  | _, _ => []

theorem complete_of_ne_full {c : Call size} (ho : c.outcome ≠ .full) : c.complete = [] := by
  unfold Call.complete
  split
  · rename_i h
    exact absurd h ho
  · rfl

theorem on_fd (s : Sink) (ev : Option (Record size)) (o : Outcome size) :
    (s.on ev o).fd = s.fd := by
  cases ev with
  | none => rfl
  | some r =>
    simp only [Sink.on]
    split
    · rfl
    · split <;> rfl

theorem on_file {s : Sink} (hfd : s.fd ≠ -1) (c : Call size) :
    (s.on c.event c.outcome).file = s.file ++ c.appended := by
  cases he : c.event with
  | none => simp [Sink.on, Call.appended, he]
  | some r =>
    simp only [Sink.on, hfd, if_false, Call.appended, he]
    split <;> rfl

theorem osWrite_result (hsize : size < 2 ^ 63) (r : Record size) (o : Outcome size) :
    equalsSize (toInt (osWrite r o).1) size = true ↔ o = .full ∧ size < 2 ^ 31 := by
  cases o with
  | full =>
    rw [osWrite, equalsSize_iff hsize (by omega) (by omega)]
    simp
  | short n =>
    have hn := n.isLt
    rw [osWrite, equalsSize_iff hsize (by omega) (by omega)]
    simp only [reduceCtorEq, false_and, iff_false, not_and]
    omega
  | failed =>
    rw [osWrite, equalsSize_iff hsize (by omega) (by omega)]
    simp only [reduceCtorEq, false_and]

/-- `bytes_written_` moves exactly when a record that an `int` can count was written whole. -/
theorem on_counts (hpos : 0 < size) (hsize : size < 2 ^ 63) {s : Sink} (hfd : s.fd ≠ -1)
    (c : Call size) :
    (s.on c.event c.outcome).bytesWritten ≠ s.bytesWritten ↔
      c.event ≠ none ∧ c.outcome = .full ∧ size < 2 ^ 31 := by
  cases he : c.event with
  | none => simp [Sink.on]
  | some r =>
    have hw := osWrite_result hsize r c.outcome
    simp only [Sink.on, hfd, if_false, ne_eq, reduceCtorEq, not_false_iff, true_and, ← hw]
    by_cases hc : equalsSize (toInt (osWrite r c.outcome).1) size = true
    · simp only [hc, if_true, iff_true]
      intro h
      have hz : BitVec.ofNat 64 size = 0 := by simpa using h
      have := congrArg BitVec.toNat hz
      rw [BitVec.toNat_ofNat] at this
      simp at this
      omega
    · simp [hc]

theorem runSink_file {s : Sink} (hfd : s.fd ≠ -1) (calls : List (Call size)) :
    (runSink s calls).1.file = s.file ++ (calls.map Call.appended).flatten := by
  induction calls generalizing s with
  | nil => simp [runSink]
  | cons c cs ih =>
    have hfd' : (s.on c.event c.outcome).fd ≠ -1 := by
      rw [on_fd]
      exact hfd
    simp only [runSink, ih hfd', on_file hfd, List.map_cons, List.flatten_cons, List.append_assoc]

theorem runSink_counted (hpos : 0 < size) (hsize : size < 2 ^ 63) {s : Sink} (hfd : s.fd ≠ -1)
    (calls : List (Call size)) :
    (runSink s calls).2.map (·.val) =
      if size < 2 ^ 31 then (calls.map Call.complete).flatten else [] := by
  induction calls generalizing s with
  | nil => simp [runSink]
  | cons c cs ih =>
    have hfd' : (s.on c.event c.outcome).fd ≠ -1 := by
      rw [on_fd]
      exact hfd
    have hcount := on_counts hpos hsize hfd c
    simp only [runSink, List.map_append, ih hfd', List.map_cons, List.flatten_cons]
    by_cases hbig : size < 2 ^ 31
    · simp only [hbig, if_true]
      congr 1
      by_cases ho : c.outcome = .full
      · cases he : c.event with
        | none => simp [Call.complete, he]
        | some r =>
          rw [he, ho] at hcount
          rw [ho, if_pos (hcount.mpr ⟨by simp, rfl, hbig⟩)]
          simp [Call.complete, he, ho]
      · rw [if_neg (fun h => ho (hcount.mp h).2.1), complete_of_ne_full ho]
        rfl
    · rw [if_neg (fun h => hbig (hcount.mp h).2.2), if_neg hbig, if_neg hbig]
      rfl

end Storage

end ConduitRuntime.Storage
