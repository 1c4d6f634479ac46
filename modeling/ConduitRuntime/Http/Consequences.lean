import ConduitRuntime.Http.Accepts

/-! What follows from the grammar of the accepted inputs: acceptance is stable under extension of
the input, and a line break reaches a token only through the method. -/
namespace ConduitRuntime.Http
open Slices
set_option autoImplicit false

variable {mem : ℕ → UInt8} {raw length : ℕ} {ev : HttpRequestEvent}

/-! ## More bytes after an accepted input -/

/-- The request followed by `q`; the further bytes belong to the body. -/
def Request.extend (r : Request) (q : List UInt8) : Request := { r with body := r.body ++ q }

theorem Request.extend_bytes (r : Request) (q : List UInt8) :
    (r.extend q).bytes = r.bytes ++ q := by
  simp only [Request.bytes, Request.extend, List.append_assoc, List.cons_append]

theorem dropTrailing_isPrefix (c : UInt8) (w : List UInt8) : dropTrailing c w <+: w := by
  unfold dropTrailing
  split
  · exact List.dropLast_prefix w
  · exact List.prefix_rfl

theorem dropTrailing_append {c : UInt8} (w : List UInt8) {q : List UInt8} (hq : q ≠ []) :
    dropTrailing c (w ++ q) = w ++ dropTrailing c q := by
  have hlast : (w ++ q).getLast? = q.getLast? := by
    rw [List.getLast?_append, List.getLast?_eq_some_getLast hq, Option.some_or]
  unfold dropTrailing
  rw [hlast]
  split
  · exact List.dropLast_append_of_ne_nil hq
  · rfl

/-- The body of a cut input is a prefix of the body of the whole, wherever the cut is. -/
theorem bodyOf_isPrefix (b q : List UInt8) : bodyOf b <+: bodyOf (b ++ q) := by
  unfold bodyOf
  by_cases hbreaks : b.dropWhile isBreak = []
  · rw [hbreaks]
    exact List.nil_prefix
  by_cases hq : q = []
  · simp only [hq, List.append_nil, List.prefix_rfl]
  have hwhole : (b ++ q).dropWhile isBreak = b.dropWhile isBreak ++ q := by
    rw [List.dropWhile_append, if_neg (fun h => hbreaks (List.isEmpty_iff.mp h))]
  -- a NUL that ends the cut body is not the last byte of the whole, and stays
  rw [hwhole, dropTrailing_append _ hq]
  exact (dropTrailing_isPrefix 0 _).trans (List.prefix_append _ _)

/-- An input that is accepted stays accepted, with the same tokens, when bytes are added to it. -/
theorem parse_extension (mem mem' : ℕ → UInt8) (raw raw' : ℕ) (p q : List UInt8)
    (ev ev' : HttpRequestEvent) (hp : slice (byte mem raw) 0 p.length = p)
    (hpq : slice (byte mem' raw') 0 (p ++ q).length = p ++ q)
    (hfresh : ev.headerCount = 0) (hfresh' : ev'.headerCount = 0)
    (h : (parse mem raw p.length ev).1 = true) :
    (parse mem' raw' (p ++ q).length ev').1 = true ∧
      (parse mem' raw' (p ++ q).length ev').2.method.read mem' =
        (parse mem raw p.length ev).2.method.read mem ∧
      (parse mem' raw' (p ++ q).length ev').2.uri.read mem' =
        (parse mem raw p.length ev).2.uri.read mem ∧
      (parse mem' raw' (p ++ q).length ev').2.headerCount =
        (parse mem raw p.length ev).2.headerCount ∧
      (parse mem' raw' (p ++ q).length ev').2.fields mem' =
        (parse mem raw p.length ev).2.fields mem ∧
      (parse mem raw p.length ev).2.body.read mem <+:
        (parse mem' raw' (p ++ q).length ev').2.body.read mem' := by
  obtain ⟨r, hr⟩ := request_of_accept hfresh h
  have hbytes : (r.extend q).bytes = p ++ q := by rw [r.extend_bytes, hr, hp]
  obtain ⟨_, hmsg⟩ := parse_request r hr.symm hfresh
  obtain ⟨haccept, hmsg'⟩ := parse_request (r.extend q) (hpq.trans hbytes.symm) hfresh'
  obtain ⟨hmethod, huri, hfields, hbody⟩ := Message.mk.inj hmsg
  obtain ⟨hmethod', huri', hfields', hbody'⟩ := Message.mk.inj hmsg'
  have hsame := hfields'.trans hfields.symm
  refine ⟨haccept, hmethod'.trans hmethod.symm, huri'.trans huri.symm, ?_, hsame, ?_⟩
  · have hcount := congrArg List.length hsame
    rwa [fields_length, fields_length] at hcount
  · rw [hbody, hbody']
    exact bodyOf_isPrefix r.body q

/-- The cut is inside the CRLF of the blank line. -/
theorem parse_extension_inside_blank_line :
    (parse (memoryOf (ascii "G / H\nA:b\n\r")) 0 11 (.unset 0)).1 = true ∧
      (parse (memoryOf (ascii "G / H\nA:b\n\r" ++ ascii "\nxy")) 0 14 (.unset 0)).2.fields
        (memoryOf (ascii "G / H\nA:b\n\r" ++ ascii "\nxy")) = [(ascii "A", ascii "b")] := by
  have h := parse_extension (memoryOf (ascii "G / H\nA:b\n\r"))
    (memoryOf (ascii "G / H\nA:b\n\r" ++ ascii "\nxy")) 0 0 (ascii "G / H\nA:b\n\r")
    (ascii "\nxy") (.unset 0) (.unset 0) (by decide) (by decide) rfl rfl (by decide)
  exact ⟨by decide, h.2.2.2.2.1.trans (by decide)⟩

/-! ## Line breaks in tokens -/

/-- No CR and no LF. -/
def Unbroken (w : List UInt8) : Prop := cr ∉ w ∧ lf ∉ w

instance (w : List UInt8) : Decidable (Unbroken w) := inferInstanceAs (Decidable (_ ∧ _))

/-- No line break in the method, the URI or a header. -/
structure Message.TokensUnbroken (m : Message) : Prop where
  method : Unbroken m.method
  uri : Unbroken m.uri
  keys : ∀ f ∈ m.fields, Unbroken f.1
  values : ∀ f ∈ m.fields, Unbroken f.2

theorem HeaderLine.key_unbroken (l : HeaderLine) : Unbroken l.key := by
  constructor
  · intro hc
    exact absurd (l.key_bytes cr hc).1 (by decide)
  · intro hc
    exact absurd (l.key_bytes lf hc).1 (by decide)

theorem HeaderLine.value_unbroken (l : HeaderLine) : Unbroken (valueOf l.rest) :=
  ⟨l.value_cr, lf_notMem_valueOf l.rest_lf⟩

theorem Request.tokensUnbroken_iff (r : Request) :
    r.message.TokensUnbroken ↔ Unbroken r.method := by
  constructor
  · intro h
    exact h.method
  · intro h
    refine ⟨h, r.uri_bytes.2, ?_, ?_⟩
    · intro f hf
      obtain ⟨l, _, rfl⟩ := List.mem_map.mp hf
      exact l.key_unbroken
    · intro f hf
      obtain ⟨l, _, rfl⟩ := List.mem_map.mp hf
      exact l.value_unbroken

theorem Request.takeWhile_bytes (r : Request) :
    r.bytes.takeWhile (fun c => decide (c ≠ sp)) = r.method := by
  have hmethod : ∀ c ∈ r.method, decide (c ≠ sp) = true := by
    intro c hc
    refine decide_eq_true fun hsp => r.method_sp ?_
    rwa [← hsp]
  rw [Request.bytes, List.takeWhile_append_of_pos hmethod, List.takeWhile_cons_of_neg (by simp),
    List.append_nil]

/-- The tokens of an accepted input are free of line breaks exactly when the bytes before its first
space are. -/
theorem tokens_unbroken (hfresh : ev.headerCount = 0) (h : (parse mem raw length ev).1 = true) :
    ((parse mem raw length ev).2.message mem).TokensUnbroken ↔
      Unbroken ((slice (byte mem raw) 0 length).takeWhile fun c => decide (c ≠ sp)) := by
  obtain ⟨r, hr⟩ := request_of_accept hfresh h
  rw [(parse_request r hr.symm hfresh).2, ← hr, r.takeWhile_bytes]
  exact r.tokensUnbroken_iff

theorem tokens_unbroken_one_header :
    ((parse (memoryOf (ascii "G / H\nA:b\n\n")) 0 11 (.unset 0)).2.message
      (memoryOf (ascii "G / H\nA:b\n\n"))).TokensUnbroken :=
  (tokens_unbroken rfl (by decide)).mpr (by decide)

/-- A request whose method runs over a line end. -/
theorem method_keeps_line_break :
    (parse (memoryOf (ascii "G\r\nX / H\n\n")) 0 10 (.unset 0)).1 = true ∧
      (parse (memoryOf (ascii "G\r\nX / H\n\n")) 0 10 (.unset 0)).2.method.read
        (memoryOf (ascii "G\r\nX / H\n\n")) = ascii "G\r\nX" ∧
      cr ∈ ascii "G\r\nX" ∧ lf ∈ ascii "G\r\nX" := by
  decide

end ConduitRuntime.Http
