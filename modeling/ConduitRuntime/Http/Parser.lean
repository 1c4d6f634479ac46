import ConduitRuntime.Foundations.Slices

/-! `http_parser::parse` over a byte memory. The event's `string_view`s are addresses and lengths in
that memory, so what they denote can be read again after the memory has changed. -/
namespace ConduitRuntime.Http
open Slices
set_option autoImplicit false

def ascii (s : String) : List UInt8 := s.toList.map fun c => UInt8.ofNat c.toNat

def sp : UInt8 := 0x20
def tab : UInt8 := 0x09
def cr : UInt8 := 0x0d
def lf : UInt8 := 0x0a
def colon : UInt8 := 0x3a

def isPad (c : UInt8) : Bool := c = sp || c = tab

def isBreak (c : UInt8) : Bool := c = cr || c = lf

/-- `std::string_view`; the null pointer is the address 0. -/
structure View where
  ptr : ℕ
  len : ℕ
  deriving DecidableEq, Repr

def View.null : View := ⟨0, 0⟩

/-- The bytes a view denotes in the memory `mem`. -/
def View.read (mem : ℕ → UInt8) (v : View) : List UInt8 := slice mem v.ptr (v.ptr + v.len)

/-- A memory that holds `bs` from address 0 on. -/
def memoryOf (bs : List UInt8) (a : ℕ) : UInt8 := bs.getD a 0

structure HttpHeader where
  key : View
  value : View

structure HttpRequestEvent where
  connectionId : ℕ
  method : View
  uri : View
  headers : ℕ → HttpHeader
  headerCount : ℕ
  body : View

/-- A default-constructed event. -/
def HttpRequestEvent.unset (connectionId : ℕ) : HttpRequestEvent :=
  ⟨connectionId, .null, .null, fun _ => ⟨.null, .null⟩, 0, .null⟩

def maxHeaders : ℕ := 16

inductive State
  | method
  | uri
  | version
  | headerKey
  | headerValue
  | body
  | done
  deriving DecidableEq, Repr

/-- The local variables of `parse` and the event it fills. -/
structure Parser where
  state : State
  tokenStart : ℕ
  sawColon : Bool
  event : HttpRequestEvent

/-- The end of an iteration: a `return`, or the value of `i` for the next test of the loop. -/
inductive Step
  | exit (result : Bool) (event : HttpRequestEvent)
  | next (i : ℕ) (p : Parser)

/-! ## Case-insensitive comparison -/

def lower (c : UInt8) : UInt8 := if 0x41 ≤ c ∧ c ≤ 0x5a then c + 0x20 else c

def ieq (a b : List UInt8) : Bool :=
  a.length = b.length && (a.zip b).all fun xy => lower xy.1 = lower xy.2

def icontains (hay needle : List UInt8) : Bool :=
  if needle = [] ∨ hay.length < needle.length then false
  else (List.range (hay.length - needle.length + 1)).any fun i =>
    ieq ((hay.drop i).take needle.length) needle

/-! ## One iteration of the loop -/

section Parse
variable (mem : ℕ → UInt8) (raw length : ℕ)

/-- `raw_buffer[i]`. -/
def byte (i : ℕ) : UInt8 := mem (raw + i)

/-- `std::string_view(raw_buffer + a, b - a)`. -/
def viewOf (a b : ℕ) : View := ⟨raw + a, b - a⟩

def stepMethod (i : ℕ) (p : Parser) : Step :=
  if byte mem raw i = sp then
    if i = p.tokenStart then .exit false p.event
    else .next (i + 1) { p with
      state := .uri, tokenStart := i + 1
      event := { p.event with method := viewOf raw p.tokenStart i } }
  else .next (i + 1) p

def stepUri (i : ℕ) (p : Parser) : Step :=
  if byte mem raw i = sp then
    if i = p.tokenStart then .exit false p.event
    else .next (i + 1) { p with
      state := .version, tokenStart := i + 1
      event := { p.event with uri := viewOf raw p.tokenStart i } }
  else if isBreak (byte mem raw i) then .exit false p.event
  else .next (i + 1) p

def stepVersion (i : ℕ) (p : Parser) : Step :=
  if byte mem raw i = lf then
    if i = p.tokenStart then .exit false p.event
    else if i = p.tokenStart + 1 ∧ byte mem raw p.tokenStart = cr then .exit false p.event
    else .next (i + 1) { p with state := .headerKey, tokenStart := i + 1 }
  else .next (i + 1) p

def badKeyByte (c : UInt8) : Bool := c ≤ 0x20 || 0x7f ≤ c || c = sp

/-- The previous header is `Host` and this key `injected`. -/
def injection (ev : HttpRequestEvent) (thisKey : View) : Bool :=
  0 < ev.headerCount && (ev.headers (ev.headerCount - 1)).key.read mem = ascii "Host" &&
    thisKey.read mem = ascii "injected"

def HttpRequestEvent.setKey (ev : HttpRequestEvent) (key : View) : HttpRequestEvent :=
  { ev with
    headers := Function.update ev.headers ev.headerCount
      ⟨key, (ev.headers ev.headerCount).value⟩ }

def HttpRequestEvent.setValue (ev : HttpRequestEvent) (value : View) : HttpRequestEvent :=
  { ev with
    headers := Function.update ev.headers ev.headerCount
      ⟨(ev.headers ev.headerCount).key, value⟩
    headerCount := ev.headerCount + 1 }

def stepHeaderKey (i : ℕ) (p : Parser) : Step :=
  if isBreak (byte mem raw i) then
    if i = p.tokenStart then
      if byte mem raw i = cr ∧ i + 1 < length ∧ byte mem raw (i + 1) = lf then
        .next (i + 2) { p with state := .body, tokenStart := i + 2 }
      else .next (i + 1) { p with state := .body, tokenStart := i + 1 }
    else if !p.sawColon then .exit false p.event
    else .next (i + 1) p
  else if byte mem raw i = colon then
    let key := viewOf raw p.tokenStart i
    if maxHeaders ≤ p.event.headerCount then .exit false p.event
    else if i = p.tokenStart then .exit false p.event
    else if injection mem p.event key then .exit false p.event
    else if 64 < i - p.tokenStart then .exit false p.event
    else if (slice (byte mem raw) p.tokenStart i).any badKeyByte then .exit false p.event
    else .next (i + 1) ⟨.headerValue, i + 1, true, p.event.setKey key⟩
  else .next (i + 1) p

/-- The value range `[val_begin, val_end)` of the line that ends at `i`. -/
def valueRange (tokenStart i : ℕ) : ℕ × ℕ :=
  let valEnd := if tokenStart < i ∧ byte mem raw (i - 1) = cr then i - 1 else i
  let valBegin := skipWhile (byte mem raw) isPad valEnd (valEnd - tokenStart) tokenStart
  (valBegin, backWhile (byte mem raw) isPad valBegin (valEnd - valBegin) valEnd)

def stepHeaderValue (i : ℕ) (p : Parser) : Step :=
  if byte mem raw i = lf then
    let (valBegin, valEnd) := valueRange mem raw p.tokenStart i
    if (slice (byte mem raw) valBegin valEnd).any isBreak then .exit false p.event
    else
      let key := (p.event.headers p.event.headerCount).key
      let value := viewOf raw valBegin valEnd
      if ieq (key.read mem) (ascii "Transfer-Encoding") &&
          icontains (value.read mem) (ascii "chunked") then .exit false p.event
      else .next (i + 1) ⟨.headerKey, i + 1, false, p.event.setValue value⟩
  else .next (i + 1) p

/-- `body_start` and `body_len`. -/
def bodyRange (tokenStart : ℕ) : ℕ × ℕ :=
  let bodyStart := skipWhile (byte mem raw) isBreak length (length - tokenStart) tokenStart
  let bodyLen := length - bodyStart
  (bodyStart, if 0 < bodyLen ∧ byte mem raw (bodyStart + bodyLen - 1) = 0 then bodyLen - 1
    else bodyLen)

def stepBody (p : Parser) : Step :=
  let (bodyStart, bodyLen) := bodyRange mem raw length p.tokenStart
  .exit true { p.event with body := ⟨raw + bodyStart, bodyLen⟩ }

def step (i : ℕ) (p : Parser) : Step :=
  match p.state with
  | .method => stepMethod mem raw i p
  | .uri => stepUri mem raw i p
  | .version => stepVersion mem raw i p
  | .headerKey => stepHeaderKey mem raw length i p
  | .headerValue => stepHeaderValue mem raw i p
  | .body => stepBody mem raw length p
  | .done => .exit true p.event

/-- The code after the loop. -/
def finish (p : Parser) : Bool × HttpRequestEvent :=
  if p.state = .body then (true, { p.event with body := .null })
  else (decide (p.state = .done), p.event)

/-- The loop from the test `i < length` on; every iteration makes `i` larger, so `length` rounds
are enough. -/
def loop : ℕ → ℕ → Parser → Bool × HttpRequestEvent
  | 0, _, p => finish p
  | fuel + 1, i, p =>
    if i < length then
      match step mem raw length i p with
      | .exit result event => (result, event)
      | .next i' p' => loop fuel i' p'
    else finish p

/-- `http_parser::parse(raw_buffer, length, out_event)`. -/
def parse (event : HttpRequestEvent) : Bool × HttpRequestEvent :=
  loop mem raw length length 0 ⟨.method, 0, false, event⟩

end Parse

end ConduitRuntime.Http
