import ConduitRuntime.Foundations.CheckedAccess
import ConduitRuntime.Http.Accepts

/-! `http_parser::parse` with every array access checked: a `raw_buffer` index must be below
`length` and a `headers` index below `MAX_HEADERS`, and a parse that makes any other access has no
result. -/
namespace ConduitRuntime.Http
open Slices CheckedAccess
set_option autoImplicit false

/-- `headers[j] = h`. -/
def HttpRequestEvent.setHeader (ev : HttpRequestEvent) (j : ℕ) (h : HttpHeader) :
    Option HttpRequestEvent :=
  if j < maxHeaders then some { ev with headers := Function.update ev.headers j h } else none

section Checked
variable (mem : ℕ → UInt8) (raw length : ℕ)

/-- `raw_buffer[i]`. -/
def rawByte (i : ℕ) : Option UInt8 := entry length (byte mem raw) i

/-- The bytes of a view of the buffer. -/
def viewBytes (v : View) : Option (List UInt8) :=
  if raw ≤ v.ptr ∧ v.ptr + v.len ≤ raw + length then some (v.read mem) else none

def checkedMethod (c : UInt8) (i : ℕ) (p : Parser) : Step :=
  if c = sp then
    if i = p.tokenStart then .exit false p.event
    else .next (i + 1) { p with
      state := .uri, tokenStart := i + 1
      event := { p.event with method := viewOf raw p.tokenStart i } }
  else .next (i + 1) p

def checkedUri (c : UInt8) (i : ℕ) (p : Parser) : Step :=
  if c = sp then
    if i = p.tokenStart then .exit false p.event
    else .next (i + 1) { p with
      state := .version, tokenStart := i + 1
      event := { p.event with uri := viewOf raw p.tokenStart i } }
  else if isBreak c then .exit false p.event
  else .next (i + 1) p

def checkedVersion (c : UInt8) (i : ℕ) (p : Parser) : Option Step := do
  if c = lf then
    if i = p.tokenStart then some (.exit false p.event)
    else if ← andAlso (i = p.tokenStart + 1) ((rawByte mem raw length p.tokenStart).map (· = cr))
      then some (.exit false p.event)
    else some (.next (i + 1) { p with state := .headerKey, tokenStart := i + 1 })
  else some (.next (i + 1) p)

/-- The previous key may be a view left by an earlier parse, of whatever buffer that one had. -/
def checkedInjection (ev : HttpRequestEvent) (thisKey : View) : Option Bool :=
  andAlso (0 < ev.headerCount) do
    let prev ← entry maxHeaders ev.headers (ev.headerCount - 1)
    let this ← viewBytes mem raw length thisKey
    some (prev.key.read mem = ascii "Host" && this = ascii "injected")

def checkedColon (i : ℕ) (p : Parser) : Option Step := do
  let key := viewOf raw p.tokenStart i
  if maxHeaders ≤ p.event.headerCount then some (.exit false p.event)
  else if i = p.tokenStart then some (.exit false p.event)
  else if ← checkedInjection mem raw length p.event key then some (.exit false p.event)
  else if 64 < i - p.tokenStart then some (.exit false p.event)
  else if ← anyBetween (rawByte mem raw length) badKeyByte p.tokenStart i then
    some (.exit false p.event)
  else do
    let old ← entry maxHeaders p.event.headers p.event.headerCount
    let event ← p.event.setHeader p.event.headerCount ⟨key, old.value⟩
    some (.next (i + 1) ⟨.headerValue, i + 1, true, event⟩)

def checkedHeaderKey (c : UInt8) (i : ℕ) (p : Parser) : Option Step := do
  if isBreak c then
    if i = p.tokenStart then
      if ← andAlso (c = cr && decide (i + 1 < length))
          ((rawByte mem raw length (i + 1)).map (· = lf))
        then some (.next (i + 2) { p with state := .body, tokenStart := i + 2 })
      else some (.next (i + 1) { p with state := .body, tokenStart := i + 1 })
    else if !p.sawColon then some (.exit false p.event)
    else some (.next (i + 1) p)
  else if c = colon then checkedColon mem raw length i p
  else some (.next (i + 1) p)

def checkedValueRange (tokenStart i : ℕ) : Option (ℕ × ℕ) := do
  let trailing ← andAlso (tokenStart < i) ((rawByte mem raw length (i - 1)).map (· = cr))
  let valEnd := if trailing then i - 1 else i
  let valBegin ← skipChecked (rawByte mem raw length) isPad valEnd (valEnd - tokenStart) tokenStart
  let valEnd ← backChecked (rawByte mem raw length) isPad valBegin (valEnd - valBegin) valEnd
  some (valBegin, valEnd)

def checkedHeaderValue (c : UInt8) (i : ℕ) (p : Parser) : Option Step := do
  if c = lf then
    let (valBegin, valEnd) ← checkedValueRange mem raw length p.tokenStart i
    if ← anyBetween (rawByte mem raw length) isBreak valBegin valEnd then some (.exit false p.event)
    else
      let header ← entry maxHeaders p.event.headers p.event.headerCount
      let value := viewOf raw valBegin valEnd
      let keyBytes ← viewBytes mem raw length header.key
      let valueBytes ← viewBytes mem raw length value
      if ieq keyBytes (ascii "Transfer-Encoding") && icontains valueBytes (ascii "chunked") then
        some (.exit false p.event)
      else
        let event ← p.event.setHeader p.event.headerCount ⟨header.key, value⟩
        some (.next (i + 1)
          ⟨.headerKey, i + 1, false, { event with headerCount := event.headerCount + 1 }⟩)
  else some (.next (i + 1) p)

def checkedBody (p : Parser) : Option Step := do
  let bodyStart ←
    skipChecked (rawByte mem raw length) isBreak length (length - p.tokenStart) p.tokenStart
  let bodyLen := length - bodyStart
  let nul ← andAlso (0 < bodyLen) ((rawByte mem raw length (bodyStart + bodyLen - 1)).map (· = 0))
  some (.exit true
    { p.event with body := ⟨raw + bodyStart, if nul then bodyLen - 1 else bodyLen⟩ })

def checkedStep (i : ℕ) (p : Parser) : Option Step := do
  let c ← rawByte mem raw length i
  match p.state with
  | .method => some (checkedMethod raw c i p)
  | .uri => some (checkedUri raw c i p)
  | .version => checkedVersion mem raw length c i p
  | .headerKey => checkedHeaderKey mem raw length c i p
  | .headerValue => checkedHeaderValue mem raw length c i p
  | .body => checkedBody mem raw length p
  | .done => some (.exit true p.event)

def checkedLoop : ℕ → ℕ → Parser → Option (Bool × HttpRequestEvent)
  | 0, _, p => some (finish p)
  | fuel + 1, i, p =>
    if i < length then do
      match ← checkedStep mem raw length i p with
      | .exit result event => some (result, event)
      | .next i' p' => checkedLoop fuel i' p'
    else some (finish p)

def checkedParse (event : HttpRequestEvent) : Option (Bool × HttpRequestEvent) :=
  checkedLoop mem raw length length 0 ⟨.method, 0, false, event⟩

end Checked

/-! ## Where the parser stands -/

section Bounds
variable {mem : ℕ → UInt8} {raw length : ℕ}

theorem rawByte_of_lt {i : ℕ} (h : i < length) :
    rawByte mem raw length i = some (byte mem raw i) := entry_of_lt _ h

/-- The view lies in the buffer. -/
def Inside (raw length : ℕ) (v : View) : Prop := raw ≤ v.ptr ∧ v.ptr + v.len ≤ raw + length

theorem viewOf_inside {a b : ℕ} (hab : a ≤ b) (hb : b ≤ length) :
    Inside raw length (viewOf raw a b) := by
  simp only [Inside, viewOf]
  omega

theorem viewBytes_of_inside {v : View} (h : Inside raw length v) :
    viewBytes mem raw length v = some (v.read mem) := if_pos h

/-- The bounds every iteration relies on. The room in the array is tested in `HEADER_KEY` and used
in `HEADER_VALUE`. -/
structure InBounds (raw length i : ℕ) (p : Parser) : Prop where
  start : p.tokenStart ≤ i
  le : i ≤ length
  room : p.state = .headerValue → p.event.headerCount < maxHeaders
  key : p.state = .headerValue → Inside raw length (p.event.headers p.event.headerCount).key
  running : p.state ≠ .done

/-- A new token in a state other than `HEADER_VALUE`. -/
theorem token_inBounds {k : ℕ} (s : State) (hs : s ≠ .headerValue ∧ s ≠ .done) (hk : k ≤ length)
    (sc : Bool) (ev : HttpRequestEvent) : InBounds raw length k ⟨s, k, sc, ev⟩ :=
  ⟨Nat.le_refl k, hk, fun e => absurd e hs.1, fun e => absurd e hs.1, hs.2⟩

theorem step_inBounds {i i' : ℕ} {p p' : Parser} (h : InBounds raw length i p) (hi : i < length)
    (hstep : step mem raw length i p = .next i' p') : InBounds raw length i' p' := by
  cases advance_of_step hstep with
  | skip p => exact ⟨Nat.le_succ_of_le h.start, hi, h.room, h.key, h.running⟩
  | method ts sc ev => exact token_inBounds .uri (by decide) hi _ _
  | uri ts sc ev => exact token_inBounds .version (by decide) hi _ _
  | version ts sc ev => exact token_inBounds .headerKey (by decide) hi _ _
  | blank ts sc ev hk => exact token_inBounds .body (by decide) (by omega) _ _
  | key ts sc ev hroom =>
    refine ⟨Nat.le_refl _, hi, fun _ => hroom, fun _ => ?_, nofun⟩
    simp only [HttpRequestEvent.setKey, Function.update_self]
    exact viewOf_inside h.start h.le
  | value ts sc ev => exact token_inBounds .headerKey (by decide) hi _ _

/-! ## Every access is in range -/

theorem rawByte_map {i : ℕ} (h : i < length) (q : UInt8 → Bool) :
    (rawByte mem raw length i).map q = some (q (byte mem raw i)) := by
  rw [rawByte_of_lt h, Option.map_some]

theorem setHeader_of_lt {ev : HttpRequestEvent} {j : ℕ} (hj : j < maxHeaders) (h : HttpHeader) :
    ev.setHeader j h = some { ev with headers := Function.update ev.headers j h } := if_pos hj

theorem checkedVersion_eq {i : ℕ} {p : Parser} (hi : i < length) :
    checkedVersion mem raw length (byte mem raw i) i p = some (stepVersion mem raw i p) := by
  have htest : andAlso (i = p.tokenStart + 1)
      ((rawByte mem raw length p.tokenStart).map (· = cr)) =
        some (decide (i = p.tokenStart + 1) && decide (byte mem raw p.tokenStart = cr)) := by
    refine andAlso_of fun hlone => ?_
    have hlone := of_decide_eq_true hlone
    exact rawByte_map (by omega) _
  simp only [checkedVersion, stepVersion, htest, Option.bind_eq_bind, Option.bind_some,
    Bool.and_eq_true, decide_eq_true_eq]
  split_ifs <;> rfl

theorem checkedInjection_eq {ev : HttpRequestEvent} {key : View} (hkey : Inside raw length key)
    (hroom : ev.headerCount < maxHeaders) :
    checkedInjection mem raw length ev key = some (injection mem ev key) := by
  unfold injection
  rw [Bool.and_assoc]
  -- `headers[header_count - 1]` is read only if `header_count > 0`
  refine andAlso_of fun _ => ?_
  rw [entry_of_lt _ (by omega), viewBytes_of_inside hkey]
  rfl

theorem checkedColon_eq {i : ℕ} {p : Parser} (hstart : p.tokenStart ≤ i) (hi : i < length)
    (hcolon : byte mem raw i = colon) :
    checkedColon mem raw length i p = some (stepHeaderKey mem raw length i p) := by
  have hbreak : isBreak colon = false := rfl
  simp only [checkedColon, stepHeaderKey, hcolon, hbreak, Bool.false_eq_true, if_false, if_true]
  by_cases hfull : maxHeaders ≤ p.event.headerCount
  · rw [if_pos hfull, if_pos hfull]
  have hroom := Nat.lt_of_not_le hfull
  rw [checkedInjection_eq (viewOf_inside hstart hi.le) hroom,
    anyBetween_eq badKeyByte (fun _ => rawByte_of_lt) hi.le, entry_of_lt _ hroom]
  simp only [if_neg hfull, Option.bind_eq_bind, Option.bind_some, setHeader_of_lt hroom]
  split_ifs <;> rfl

theorem checkedHeaderKey_eq {i : ℕ} {p : Parser} (hstart : p.tokenStart ≤ i) (hi : i < length) :
    checkedHeaderKey mem raw length (byte mem raw i) i p =
      some (stepHeaderKey mem raw length i p) := by
  unfold checkedHeaderKey
  by_cases hbreak : isBreak (byte mem raw i) = true
  · have htest : andAlso (byte mem raw i = cr && decide (i + 1 < length))
        ((rawByte mem raw length (i + 1)).map (· = lf)) =
          some ((decide (byte mem raw i = cr) && decide (i + 1 < length)) &&
            decide (byte mem raw (i + 1) = lf)) := by
      refine andAlso_of fun hnext => ?_
      obtain ⟨_, hnext⟩ := Bool.and_eq_true_iff.mp hnext
      exact rawByte_map (of_decide_eq_true hnext) _
    simp only [stepHeaderKey, if_pos hbreak, htest, Option.bind_eq_bind, Option.bind_some,
      Bool.and_eq_true, decide_eq_true_eq, and_assoc]
    split_ifs <;> rfl
  · rw [if_neg hbreak]
    by_cases hcolon : byte mem raw i = colon
    · rw [if_pos hcolon]
      exact checkedColon_eq hstart hi hcolon
    · rw [if_neg hcolon, stepHeaderKey, if_neg hbreak, if_neg hcolon]

theorem checkedValueRange_eq {ts i : ℕ} (hi : i < length) :
    checkedValueRange mem raw length ts i = some (valueRange mem raw ts i) := by
  have htest : andAlso (ts < i) ((rawByte mem raw length (i - 1)).map (· = cr)) =
      some (decide (ts < i) && decide (byte mem raw (i - 1) = cr)) :=
    andAlso_of fun _ => rawByte_map (by omega) _
  have hend : (if ts < i ∧ byte mem raw (i - 1) = cr then i - 1 else i) ≤ length := by
    split <;> omega
  simp only [checkedValueRange, htest, Option.bind_eq_bind, Option.bind_some, Bool.and_eq_true,
    decide_eq_true_eq]
  rw [skipChecked_eq isPad (fun _ => rawByte_of_lt) hend]
  simp only [Option.bind_some]
  rw [backChecked_eq isPad (fun _ => rawByte_of_lt) _ _ hend]
  rfl

theorem checkedHeaderValue_eq {i : ℕ} {p : Parser} (h : InBounds raw length i p)
    (hstate : p.state = .headerValue) (hi : i < length) :
    checkedHeaderValue mem raw length (byte mem raw i) i p =
      some (stepHeaderValue mem raw i p) := by
  obtain ⟨_, hle, hend, _⟩ := valueRange_spec mem raw h.start
  have hroom := h.room hstate
  simp only [checkedHeaderValue, stepHeaderValue, checkedValueRange_eq hi, Option.bind_eq_bind,
    Option.bind_some]
  rw [anyBetween_eq isBreak (fun _ => rawByte_of_lt) (hend.trans hi.le), entry_of_lt _ hroom]
  simp only [Option.bind_some, viewBytes_of_inside (h.key hstate),
    viewBytes_of_inside (viewOf_inside hle (hend.trans hi.le)), setHeader_of_lt hroom]
  split_ifs <;> rfl

theorem checkedBody_eq {p : Parser} (hstart : p.tokenStart ≤ length) :
    checkedBody mem raw length p = some (stepBody mem raw length p) := by
  unfold checkedBody
  rw [skipChecked_eq isBreak (fun _ => rawByte_of_lt) (Nat.le_refl length)]
  simp only [stepBody, bodyRange, Option.bind_eq_bind, Option.bind_some]
  obtain ⟨_, hle, _⟩ := skipWhile_spec (byte mem raw) isBreak hstart
    (Nat.le_refl (length - p.tokenStart))
  generalize skipWhile (byte mem raw) isBreak length (length - p.tokenStart) p.tokenStart = s
    at hle ⊢
  have htest : andAlso (0 < length - s)
      ((rawByte mem raw length (s + (length - s) - 1)).map (· = 0)) =
        some (decide (0 < length - s) && decide (byte mem raw (s + (length - s) - 1) = 0)) := by
    refine andAlso_of fun hpos => ?_
    have hpos := of_decide_eq_true hpos
    exact rawByte_map (by omega) _
  simp only [htest, Option.bind_some, Bool.and_eq_true, decide_eq_true_eq]

theorem checkedStep_eq {i : ℕ} {p : Parser} (h : InBounds raw length i p) (hi : i < length) :
    checkedStep mem raw length i p = some (step mem raw length i p) := by
  unfold checkedStep step
  rw [rawByte_of_lt hi]
  simp only [Option.bind_eq_bind, Option.bind_some]
  cases hstate : p.state with
  | method => rfl
  | uri => rfl
  | version => exact checkedVersion_eq hi
  | headerKey => exact checkedHeaderKey_eq h.start hi
  | headerValue => exact checkedHeaderValue_eq h hstate hi
  | body => exact checkedBody_eq (h.start.trans h.le)
  | done => rfl

theorem checkedLoop_eq (fuel : ℕ) {i : ℕ} {p : Parser} (h : InBounds raw length i p) :
    checkedLoop mem raw length fuel i p = some (loop mem raw length fuel i p) := by
  induction fuel generalizing i p with
  | zero => rfl
  | succ fuel ih =>
    unfold checkedLoop loop
    by_cases hi : i < length
    · rw [if_pos hi, if_pos hi, checkedStep_eq h hi]
      cases hstep : step mem raw length i p with
      | exit result event => rfl
      | next i' p' => exact ih (step_inBounds h hi hstep)
    · rw [if_neg hi, if_neg hi]

theorem start_inBounds (raw length : ℕ) (ev : HttpRequestEvent) :
    InBounds raw length 0 ⟨.method, 0, false, ev⟩ :=
  token_inBounds .method (by decide) (Nat.zero_le length) false ev

/-- The checked parser always has a result, and it is the parser's. -/
theorem checkedParse_eq (mem : ℕ → UInt8) (raw length : ℕ) (ev : HttpRequestEvent) :
    checkedParse mem raw length ev = some (parse mem raw length ev) :=
  checkedLoop_eq length (start_inBounds raw length ev)

end Bounds

end ConduitRuntime.Http
