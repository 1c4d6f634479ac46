import ConduitRuntime.Http.Accepts

/-! Rendering a request and parsing it back. The line ends and the padding of the values are free
choices of the renderer; the message does not depend on them. -/
namespace ConduitRuntime.Http
open Slices
set_option autoImplicit false

/-! ## Documents and their renderings -/

structure Header where
  key : List UInt8
  value : List UInt8
  key_pos : 1 ≤ key.length
  key_le : key.length ≤ 64
  key_bytes : ∀ c ∈ key, 0x21 ≤ c ∧ c ≤ 0x7e ∧ c ≠ colon
  value_cr : cr ∉ value
  value_lf : lf ∉ value
  value_head : ∀ c ∈ value.head?, isPad c = false
  value_last : ∀ c ∈ value.getLast?, isPad c = false
  not_chunked : ¬ Chunked (key, value)

def Header.field (h : Header) : Field := (h.key, h.value)

structure Document where
  method : List UInt8
  uri : List UInt8
  version : List UInt8
  headers : List Header
  body : List UInt8
  method_ne : method ≠ []
  method_sp : sp ∉ method
  uri_ne : uri ≠ []
  uri_bytes : sp ∉ uri ∧ cr ∉ uri ∧ lf ∉ uri
  version_ne : version ≠ []
  version_bytes : cr ∉ version ∧ lf ∉ version
  headers_le : headers.length ≤ 16
  headers_chain : headers.IsChain fun a b => ¬ (a.key = ascii "Host" ∧ b.key = ascii "injected")
  body_head : ∀ c ∈ body.head?, isBreak c = false
  body_last : body.getLast? ≠ some 0

def Document.message (d : Document) : Message :=
  ⟨d.method, d.uri, d.headers.map Header.field, d.body⟩

inductive Eol
  | lf
  | crlf
  deriving DecidableEq, Repr

def Eol.bytes : Eol → List UInt8
  | .lf => [Http.lf]
  | .crlf => [cr, Http.lf]

/-- How one header line is written. -/
structure LineLayout where
  before : List UInt8
  after : List UInt8
  eol : Eol
  before_pad : ∀ c ∈ before, isPad c = true
  after_pad : ∀ c ∈ after, isPad c = true

structure Layout where
  requestLine : Eol
  line : ℕ → LineLayout
  blankLine : Eol

def Header.render (h : Header) (l : LineLayout) : List UInt8 :=
  h.key ++ [colon] ++ l.before ++ h.value ++ l.after ++ l.eol.bytes

/-- The `j`-th header is written in the `j`-th layout. -/
def renderHeaders : List Header → (ℕ → LineLayout) → List UInt8
  | [], _ => []
  | h :: hs, line => h.render (line 0) ++ renderHeaders hs fun j => line (j + 1)

def Document.render (d : Document) (l : Layout) : List UInt8 :=
  d.method ++ [sp] ++ d.uri ++ [sp] ++ d.version ++ l.requestLine.bytes ++
    renderHeaders d.headers l.line ++ l.blankLine.bytes ++ d.body

/-! ## A rendering is a word of the grammar -/

/-- What an end of line puts before its line feed. -/
def Eol.lead : Eol → List UInt8
  | .lf => []
  | .crlf => [cr]

theorem Eol.bytes_eq (e : Eol) : e.bytes = e.lead ++ [Http.lf] := by
  cases e <;> rfl

theorem isPad_cr_lf {w : List UInt8} (h : ∀ c ∈ w, isPad c = true) : cr ∉ w ∧ lf ∉ w :=
  ⟨fun hm => absurd (h _ hm) (by decide), fun hm => absurd (h _ hm) (by decide)⟩

theorem Eol.lf_notMem_lead (e : Eol) : Http.lf ∉ e.lead := by
  cases e <;> decide

theorem Eol.dropTrailing_lead (e : Eol) {w : List UInt8} (h : cr ∉ w) :
    dropTrailing cr (w ++ e.lead) = w := by
  cases e with
  | lf =>
    have hne : w.getLast? ≠ some cr := fun hlast => h (List.mem_of_getLast? hlast)
    rw [Eol.lead, List.append_nil, dropTrailing_of_ne hne]
  | crlf => exact dropTrailing_concat cr w

theorem cr_notMem_padded (h : Header) (l : LineLayout) :
    cr ∉ l.before ++ h.value ++ l.after := by
  simp only [List.mem_append, not_or]
  exact ⟨⟨(isPad_cr_lf l.before_pad).1, h.value_cr⟩, (isPad_cr_lf l.after_pad).1⟩

theorem valueOf_padded (h : Header) (l : LineLayout) :
    valueOf (l.before ++ h.value ++ l.after ++ l.eol.lead) = h.value := by
  rw [valueOf, l.eol.dropTrailing_lead (cr_notMem_padded h l)]
  exact dropWhile_rdropWhile_padded isPad l.before_pad l.after_pad h.value_head h.value_last

def Header.line (h : Header) (l : LineLayout) : HeaderLine where
  key := h.key
  rest := l.before ++ h.value ++ l.after ++ l.eol.lead
  key_pos := h.key_pos
  key_le := h.key_le
  key_bytes := h.key_bytes
  rest_lf := by
    simp only [List.mem_append, not_or]
    exact ⟨⟨⟨(isPad_cr_lf l.before_pad).2, h.value_lf⟩, (isPad_cr_lf l.after_pad).2⟩,
      l.eol.lf_notMem_lead⟩
  value_cr := by
    rw [valueOf_padded]
    exact h.value_cr
  not_chunked := by
    rw [valueOf_padded]
    exact h.not_chunked

theorem Header.line_field (h : Header) (l : LineLayout) : (h.line l).field = h.field :=
  congrArg (Prod.mk h.key) (valueOf_padded h l)

theorem Header.line_bytes (h : Header) (l : LineLayout) : (h.line l).bytes = h.render l := by
  simp [HeaderLine.bytes, Header.line, Header.render, Eol.bytes_eq]

def linesOf : List Header → (ℕ → LineLayout) → List HeaderLine
  | [], _ => []
  | h :: hs, line => h.line (line 0) :: linesOf hs fun j => line (j + 1)

theorem linesOf_fields (hs : List Header) (line : ℕ → LineLayout) :
    (linesOf hs line).map HeaderLine.field = hs.map Header.field := by
  induction hs generalizing line with
  | nil => rfl
  | cons h hs ih => rw [linesOf, List.map_cons, List.map_cons, h.line_field, ih]

theorem linesOf_bytes (hs : List Header) (line : ℕ → LineLayout) :
    (linesOf hs line).flatMap HeaderLine.bytes = renderHeaders hs line := by
  induction hs generalizing line with
  | nil => rfl
  | cons h hs ih => rw [linesOf, List.flatMap_cons, h.line_bytes, ih, renderHeaders]

theorem headers_allowed_of_chain {hs : List Header} (hle : hs.length ≤ 16)
    (hchain : hs.IsChain fun a b => ¬ (a.key = ascii "Host" ∧ b.key = ascii "injected")) :
    Allowed (hs.map Header.field) :=
  ⟨by rwa [List.length_map], (List.isChain_map Header.field).mpr hchain⟩

/-- The byte of a blank line that ends the header section. -/
def Eol.blank : Eol → UInt8
  | .lf => Http.lf
  | .crlf => cr

/-- What a blank line leaves in front of the body. -/
def Eol.remainder : Eol → List UInt8
  | .lf => []
  | .crlf => [Http.lf]

theorem Eol.bytes_eq_blank (e : Eol) : e.bytes = e.blank :: e.remainder := by
  cases e <;> rfl

theorem bodyOf_remainder (e : Eol) {b : List UInt8} (hhead : ∀ c ∈ b.head?, isBreak c = false)
    (hlast : b.getLast? ≠ some 0) : bodyOf (e.remainder ++ b) = b := by
  have hremainder : ∀ c ∈ e.remainder, isBreak c = true := by
    cases e with
    | lf => exact List.forall_mem_nil _
    | crlf => exact List.forall_mem_singleton.mpr rfl
  have hstay : b.dropWhile isBreak = b := by
    cases b with
    | nil => rfl
    | cons c b =>
      have hc : ¬ isBreak c = true := by simp [hhead c rfl]
      exact List.dropWhile_cons_of_neg hc
  rw [bodyOf, List.dropWhile_append_of_pos hremainder, hstay, dropTrailing_of_ne hlast]

def Document.request (d : Document) (l : Layout) : Request where
  method := d.method
  uri := d.uri
  version := d.version ++ l.requestLine.lead
  headers := linesOf d.headers l.line
  blank := l.blankLine.blank
  body := l.blankLine.remainder ++ d.body
  method_ne := d.method_ne
  method_sp := d.method_sp
  uri_ne := d.uri_ne
  uri_bytes := d.uri_bytes
  version_lf := by
    rw [List.mem_append, not_or]
    exact ⟨d.version_bytes.2, l.requestLine.lf_notMem_lead⟩
  version_ne := List.append_ne_nil_of_left_ne_nil d.version_ne _
  version_cr := by
    intro h
    have hversion := l.requestLine.dropTrailing_lead d.version_bytes.1
    rw [h] at hversion
    exact d.version_ne hversion.symm
  headers_allowed := by
    rw [linesOf_fields]
    exact headers_allowed_of_chain d.headers_le d.headers_chain
  blank_eq := by cases l.blankLine <;> decide

theorem Document.request_bytes (d : Document) (l : Layout) :
    (d.request l).bytes = d.render l := by
  simp [Request.bytes, Document.request, Document.render, linesOf_bytes,
    l.requestLine.bytes_eq, l.blankLine.bytes_eq_blank]

theorem Document.request_message (d : Document) (l : Layout) :
    (d.request l).message = d.message := by
  rw [Request.message, Document.message, Message.mk.injEq]
  exact ⟨rfl, rfl, linesOf_fields d.headers l.line, bodyOf_remainder _ d.body_head d.body_last⟩

theorem parse_render (d : Document) (l : Layout) (mem : ℕ → UInt8) (raw length : ℕ)
    (ev : HttpRequestEvent) (hbytes : slice (byte mem raw) 0 length = d.render l)
    (hfresh : ev.headerCount = 0) :
    (parse mem raw length ev).1 = true ∧
      (parse mem raw length ev).2.headerCount = d.headers.length ∧
      (parse mem raw length ev).2.message mem = d.message := by
  obtain ⟨haccept, hmessage⟩ :=
    parse_request (d.request l) (hbytes.trans (d.request_bytes l).symm) hfresh
  rw [d.request_message l] at hmessage
  have hcount := congrArg (fun m => m.fields.length) hmessage
  simp only [HttpRequestEvent.message, fields_length, Document.message, List.length_map] at hcount
  exact ⟨haccept, hcount, hmessage⟩

/-! ## A rendering with padding and mixed line ends -/

def sampleHeader : Header where
  key := ascii "K"
  value := ascii "v"
  key_pos := by decide
  key_le := by decide
  key_bytes := List.forall_mem_singleton.mpr (by decide)
  value_cr := by decide
  value_lf := by decide
  value_head := by
    intro c hc
    cases hc
    rfl
  value_last := by
    intro c hc
    cases hc
    rfl
  not_chunked := by decide

def sampleDocument : Document where
  method := ascii "G"
  uri := ascii "/"
  version := ascii "H"
  headers := [sampleHeader]
  body := ascii "b"
  method_ne := by decide
  method_sp := by decide
  uri_ne := by decide
  uri_bytes := by decide
  version_ne := by decide
  version_bytes := by decide
  headers_le := by decide
  headers_chain := .singleton _
  body_head := by
    intro c hc
    cases hc
    rfl
  body_last := by decide

def sampleLayout : Layout where
  requestLine := .crlf
  line := fun _ => ⟨[sp], [tab], .lf, List.forall_mem_singleton.mpr rfl,
    List.forall_mem_singleton.mpr rfl⟩
  blankLine := .crlf

theorem parse_render_sample :
    slice (byte (memoryOf (sampleDocument.render sampleLayout)) 0) 0 16 =
        sampleDocument.render sampleLayout ∧
      (parse (memoryOf (sampleDocument.render sampleLayout)) 0 16 (.unset 0)).2.message
        (memoryOf (sampleDocument.render sampleLayout)) = sampleDocument.message :=
  ⟨by decide, (parse_render sampleDocument sampleLayout
    (memoryOf (sampleDocument.render sampleLayout)) 0 16 (.unset 0) (by decide) rfl).2.2⟩

end ConduitRuntime.Http
