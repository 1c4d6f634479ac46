import ConduitRuntime.Http.Parser
import Mathlib.Data.List.Chain
import Mathlib.Data.List.Infix

/-! The requests the parser is meant to accept: a grammar on byte strings, with the message that
each of its words carries. Nothing here depends on how the parser scans. -/
namespace ConduitRuntime.Http
open Slices
set_option autoImplicit false

/-! ## Case-insensitive comparison -/

def EqIgnoreCase (a b : List UInt8) : Prop := a.map lower = b.map lower

/-- Some stretch of `hay` is `needle` up to ASCII case. -/
def ContainsIgnoreCase (hay needle : List UInt8) : Prop := needle.map lower <:+: hay.map lower

theorem ieq_iff (a b : List UInt8) : ieq a b = true ↔ EqIgnoreCase a b := by
  unfold EqIgnoreCase
  induction a generalizing b with
  | nil => cases b <;> simp [ieq]
  | cons x a ih =>
    cases b with
    | nil => simp [ieq]
    | cons y b =>
      have hstep : ieq (x :: a) (y :: b) = true ↔ lower x = lower y ∧ ieq a b = true := by
        simp only [ieq, List.length_cons, List.zip_cons_cons, List.all_cons, Bool.and_eq_true,
          decide_eq_true_eq, Nat.add_right_cancel_iff]
        tauto
      rw [hstep, ih]
      simp

theorem icontains_iff (hay : List UInt8) {needle : List UInt8} (hne : needle ≠ []) :
    icontains hay needle = true ↔ ContainsIgnoreCase hay needle := by
  unfold icontains ContainsIgnoreCase
  by_cases hlen : hay.length < needle.length
  · simp only [hne, hlen, or_true, if_true, Bool.false_eq_true, false_iff]
    intro h
    have hle := h.length_le
    simp only [List.length_map] at hle
    omega
  simp only [hne, hlen, or_self, if_false, List.any_eq_true, List.mem_range, ieq_iff, EqIgnoreCase]
  constructor
  · rintro ⟨i, _, heq⟩
    refine ⟨(hay.take i).map lower, ((hay.drop i).drop needle.length).map lower, ?_⟩
    rw [← heq, ← List.map_append, ← List.map_append, List.append_assoc,
      List.take_append_drop, List.take_append_drop]
  · rintro ⟨s, t, heq⟩
    have hlens := congrArg List.length heq
    simp only [List.length_append, List.length_map] at hlens
    refine ⟨s.length, by omega, ?_⟩
    have hneedle : (needle.map lower).length = needle.length := List.length_map lower
    rw [List.map_take, List.map_drop, ← heq, List.append_assoc, List.drop_left, ← hneedle,
      List.take_left]

/-! ## Header lines -/

def trim (w : List UInt8) : List UInt8 := (w.dropWhile isPad).rdropWhile isPad

/-- The value that the bytes between the colon and the line feed stand for. -/
def valueOf (w : List UInt8) : List UInt8 := trim (dropTrailing cr w)

/-- A header's key and value. -/
abbrev Field : Type := List UInt8 × List UInt8

def Chunked (f : Field) : Prop :=
  EqIgnoreCase f.1 (ascii "Transfer-Encoding") ∧ ContainsIgnoreCase f.2 (ascii "chunked")

instance (f : Field) : Decidable (Chunked f) := by
  unfold Chunked EqIgnoreCase ContainsIgnoreCase
  infer_instance

/-- A header line `key ':' rest LF`. -/
structure HeaderLine where
  key : List UInt8
  rest : List UInt8
  key_pos : 1 ≤ key.length
  key_le : key.length ≤ 64
  key_bytes : ∀ c ∈ key, 0x21 ≤ c ∧ c ≤ 0x7e ∧ c ≠ colon
  rest_lf : lf ∉ rest
  value_cr : cr ∉ valueOf rest
  not_chunked : ¬ Chunked (key, valueOf rest)

def HeaderLine.bytes (h : HeaderLine) : List UInt8 := h.key ++ colon :: (h.rest ++ [lf])

def HeaderLine.field (h : HeaderLine) : Field := (h.key, valueOf h.rest)

/-- `injected` does not follow `Host`. -/
def NotInjected (prev next : Field) : Prop :=
  ¬ (prev.1 = ascii "Host" ∧ next.1 = ascii "injected")

/-- The conditions on a header section as a whole. -/
structure Allowed (fs : List Field) : Prop where
  count : fs.length ≤ maxHeaders
  chain : fs.IsChain NotInjected

theorem allowed_nil : Allowed [] := ⟨Nat.zero_le _, .nil⟩

theorem Allowed.left {fs gs : List Field} (h : Allowed (fs ++ gs)) : Allowed fs := by
  have hcount := h.count
  rw [List.length_append] at hcount
  exact ⟨by omega, (List.isChain_append.mp h.chain).1⟩

theorem allowed_snoc {fs : List Field} {f : Field} (h : Allowed fs) :
    Allowed (fs ++ [f]) ↔
      fs.length < maxHeaders ∧ ∀ prev ∈ fs.getLast?, NotInjected prev f := by
  constructor
  · intro h'
    have hcount := h'.count
    simp only [List.length_append, List.length_singleton] at hcount
    refine ⟨hcount, fun prev hprev => ?_⟩
    exact (List.isChain_append.mp h'.chain).2.2 prev hprev f rfl
  · rintro ⟨hlt, hlast⟩
    refine ⟨by rw [List.length_append]; exact hlt,
      List.isChain_append.mpr ⟨h.chain, .singleton f, ?_⟩⟩
    intro prev hprev next hnext
    obtain rfl : f = next := by simpa using hnext
    exact hlast prev hprev

/-! ## Requests -/

/-- `M SP U SP V LF H₁ … Hₖ E B`. -/
structure Request where
  method : List UInt8
  uri : List UInt8
  version : List UInt8
  headers : List HeaderLine
  blank : UInt8
  body : List UInt8
  method_ne : method ≠ []
  method_sp : sp ∉ method
  uri_ne : uri ≠ []
  uri_bytes : sp ∉ uri ∧ cr ∉ uri ∧ lf ∉ uri
  version_lf : lf ∉ version
  version_ne : version ≠ []
  version_cr : version ≠ [cr]
  headers_allowed : Allowed (headers.map HeaderLine.field)
  blank_eq : blank = cr ∨ blank = lf

def Request.bytes (r : Request) : List UInt8 :=
  r.method ++ sp :: (r.uri ++ sp :: (r.version ++ lf ::
    (r.headers.flatMap HeaderLine.bytes ++ r.blank :: r.body)))

/-- What a request says. -/
structure Message where
  method : List UInt8
  uri : List UInt8
  fields : List Field
  body : List UInt8
  deriving DecidableEq

/-- The body that the bytes after the first byte of the blank line stand for. -/
def bodyOf (b : List UInt8) : List UInt8 := dropTrailing 0 (b.dropWhile isBreak)

def Request.message (r : Request) : Message :=
  ⟨r.method, r.uri, r.headers.map HeaderLine.field, bodyOf r.body⟩

/-! ## The message an event denotes -/

def HttpHeader.field (mem : ℕ → UInt8) (h : HttpHeader) : Field :=
  (h.key.read mem, h.value.read mem)

def HttpRequestEvent.fields (mem : ℕ → UInt8) (ev : HttpRequestEvent) : List Field :=
  slice (fun j => (ev.headers j).field mem) 0 ev.headerCount

/-- An event's views read through the memory `mem`. -/
def HttpRequestEvent.message (mem : ℕ → UInt8) (ev : HttpRequestEvent) : Message :=
  ⟨ev.method.read mem, ev.uri.read mem, ev.fields mem, ev.body.read mem⟩

end ConduitRuntime.Http
