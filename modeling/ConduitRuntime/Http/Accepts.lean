import ConduitRuntime.Http.Headers

/-! The parser accepts exactly the words of the grammar, and the event it fills denotes the message
of the word. -/
namespace ConduitRuntime.Http
open Slices
set_option autoImplicit false

variable {mem : ℕ → UInt8} {raw length i : ℕ} {ev : HttpRequestEvent}

/-! ## The blank line and the body -/

theorem bodyRange_spec (mem : ℕ → UInt8) (raw : ℕ) {length i : ℕ} (hi : i ≤ length) :
    i ≤ (bodyRange mem raw length i).1 ∧
      (bodyRange mem raw length i).1 + (bodyRange mem raw length i).2 ≤ length ∧
      slice (byte mem raw) (bodyRange mem raw length i).1
        ((bodyRange mem raw length i).1 + (bodyRange mem raw length i).2) =
        bodyOf (rest mem raw length i) := by
  obtain ⟨h₁, h₂, hskip⟩ := skipWhile_spec (byte mem raw) isBreak hi (Nat.le_refl (length - i))
  unfold bodyRange
  dsimp only
  generalize skipWhile (byte mem raw) isBreak length (length - i) i = s at h₁ h₂ hskip ⊢
  have hnul := slice_dropTrailing (byte mem raw) 0 s length
  have hlast : s + (length - s) - 1 = length - 1 := by omega
  have hend : (s + if 0 < length - s ∧ byte mem raw (length - 1) = 0 then length - s - 1
      else length - s) = if s < length ∧ byte mem raw (length - 1) = 0 then length - 1
      else length := by
    simp only [Nat.sub_pos_iff_lt]
    split <;> omega
  rw [hlast, hend]
  refine ⟨h₁, by split <;> omega, ?_⟩
  rw [hnul, hskip]
  rfl

theorem go_body (mem : ℕ → UInt8) (raw : ℕ) (sc : Bool) (ev : HttpRequestEvent) {length i : ℕ}
    (hi : i ≤ length) :
    ∃ v : View, v.read mem = bodyOf (rest mem raw length i) ∧
      go mem raw length i ⟨.body, i, sc, ev⟩ = (true, { ev with body := v }) := by
  by_cases hlt : i < length
  · obtain ⟨_, _, hread⟩ := bodyRange_spec mem raw hi
    refine ⟨⟨raw + (bodyRange mem raw length i).1, (bodyRange mem raw length i).2⟩, ?_,
      go_exit hlt rfl⟩
    rw [← hread, View.read, Nat.add_assoc]
    exact (slice_shift mem raw _ _).symm
  · refine ⟨.null, ?_, go_end (Nat.le_of_not_lt hlt)⟩
    rw [rest_nil (Nat.le_of_not_lt hlt)]
    rfl

theorem bodyOf_cons {c : UInt8} (b : List UInt8) (h : isBreak c = true) :
    bodyOf (c :: b) = bodyOf b := by
  rw [bodyOf, List.dropWhile_cons_of_pos h, bodyOf]

theorem go_blank (sc : Bool) (ev : HttpRequestEvent) {e : UInt8} {b : List UInt8}
    (h : rest mem raw length i = e :: b) (he : isBreak e = true) :
    ∃ v : View, v.read mem = bodyOf b ∧
      go mem raw length i ⟨.headerKey, i, sc, ev⟩ = (true, { ev with body := v }) := by
  obtain ⟨hlt, hbyte, hb⟩ := slice_eq_cons _ h
  have hbreak : isBreak (byte mem raw i) = true := by rwa [hbyte]
  by_cases hcrlf : byte mem raw i = cr ∧ i + 1 < length ∧ byte mem raw (i + 1) = lf
  · obtain ⟨v, hv, hgo⟩ := go_body mem raw sc ev hcrlf.2.1
    refine ⟨v, ?_, (go_next hlt ?_).trans hgo⟩
    · rw [hv, ← hb, slice_cons _ hcrlf.2.1, hcrlf.2.2, bodyOf_cons _ rfl]
      rfl
    · simp only [step, stepHeaderKey, hbreak, if_true, if_pos hcrlf]
  · obtain ⟨v, hv, hgo⟩ := go_body mem raw sc ev hlt
    refine ⟨v, ?_, (go_next hlt ?_).trans hgo⟩
    · rw [hv, ← hb]
      rfl
    · simp only [step, stepHeaderKey, hbreak, if_true, if_neg hcrlf]

/-! ## Whole requests -/

theorem uriStop_iff (u : List UInt8) :
    (∀ b ∈ u, uriStop b = false) ↔ sp ∉ u ∧ cr ∉ u ∧ lf ∉ u := by
  simp only [uriStop, isBreak, Bool.or_eq_false_iff, decide_eq_false_iff_not]
  constructor
  · intro h
    exact ⟨fun hm => (h _ hm).1 rfl, fun hm => (h _ hm).2.1 rfl, fun hm => (h _ hm).2.2 rfl⟩
  · rintro ⟨hsp, hcr, hlf⟩ b hb
    exact ⟨fun e => hsp (e ▸ hb), fun e => hcr (e ▸ hb), fun e => hlf (e ▸ hb)⟩

theorem isBreak_iff (c : UInt8) : isBreak c = true ↔ c = cr ∨ c = lf := by
  simp [isBreak]

/-- The event after the request line. -/
def afterRequestLine (raw : ℕ) (ev : HttpRequestEvent) (r : Request) : HttpRequestEvent :=
  { ev with
    method := viewOf raw 0 (0 + r.method.length)
    uri := viewOf raw (0 + r.method.length + 1) (0 + r.method.length + 1 + r.uri.length) }

/-- A word of the grammar is accepted, and its message is what the event denotes. -/
theorem parse_request (r : Request) (h : slice (byte mem raw) 0 length = r.bytes)
    (hfresh : ev.headerCount = 0) :
    (parse mem raw length ev).1 = true ∧ (parse mem raw length ev).2.message mem = r.message := by
  have h₀ : rest mem raw length 0 = r.method ++ sp :: (r.uri ++ sp :: (r.version ++ lf ::
      (r.headers.flatMap HeaderLine.bytes ++ r.blank :: r.body))) := h
  obtain ⟨hlt₁, _, _, h₁⟩ := rest_eq_append (Nat.zero_le _) h₀
  obtain ⟨hlt₂, _, _, h₂⟩ := rest_eq_append hlt₁ h₁
  obtain ⟨hlt₃, _, _, h₃⟩ := rest_eq_append hlt₂ h₂
  have hfields : (afterRequestLine raw ev r).fields mem = [] := fields_of_count hfresh
  have hallowed : Allowed ((afterRequestLine raw ev r).fields mem) := hfields ▸ allowed_nil
  obtain ⟨j, _, hj, hext, hgo⟩ := go_lines r.headers hlt₃ h₃ hallowed
    (by rw [hfields]; exact r.headers_allowed)
  obtain ⟨v, hv, hblank⟩ := go_blank false
    (addLines mem raw _ (afterRequestLine raw ev r) r.headers) hj ((isBreak_iff _).mpr r.blank_eq)
  have hline : go mem raw length 0 ⟨.method, 0, false, ev⟩ =
      go mem raw length _ ⟨.headerKey, _, false, afterRequestLine raw ev r⟩ :=
    (go_method (Nat.zero_le _) h₀ r.method_sp r.method_ne).trans
      ((go_uri hlt₁ h₁ ((uriStop_iff _).mpr r.uri_bytes) r.uri_ne).trans
        (go_version hlt₂ h₂ r.version_lf r.version_ne r.version_cr))
  rw [parse_eq_go, hline, hgo, hblank]
  refine ⟨rfl, ?_⟩
  rw [HttpRequestEvent.message, Request.message, Message.mk.injEq]
  refine ⟨?_, ?_, ?_, hv⟩
  · exact (congrArg _ hext.method).trans (viewOf_read_rest (Nat.zero_le _) h₀)
  · exact (congrArg _ hext.uri).trans (viewOf_read_rest hlt₁ h₁)
  · refine Eq.trans hext.fields ?_
    rw [hfields, List.nil_append]

/-- An accepted input is a word of the grammar. -/
theorem request_of_accept (hfresh : ev.headerCount = 0)
    (h : (parse mem raw length ev).1 = true) :
    ∃ r : Request, r.bytes = slice (byte mem raw) 0 length := by
  rw [parse_eq_go] at h
  obtain ⟨m, y₁, h₀, hsp, hm⟩ := method_of_accept (Nat.zero_le _) h
  obtain ⟨hlt₁, _, _, hy₁⟩ := rest_eq_append (Nat.zero_le _) h₀
  rw [go_method (Nat.zero_le _) h₀ hsp hm] at h
  obtain ⟨u, y₂, h₁, hstop, hu⟩ := uri_of_accept hlt₁ h
  obtain ⟨hlt₂, _, _, hy₂⟩ := rest_eq_append hlt₁ h₁
  rw [go_uri hlt₁ h₁ hstop hu] at h
  obtain ⟨v, y₃, h₂, hlf, hv, hcr⟩ := version_of_accept hlt₂ h
  obtain ⟨hlt₃, _, _, hy₃⟩ := rest_eq_append hlt₂ h₂
  rw [go_version hlt₂ h₂ hlf hv hcr] at h
  have hfields : HttpRequestEvent.fields mem { ev with
      method := viewOf raw 0 (0 + m.length)
      uri := viewOf raw (0 + m.length + 1) (0 + m.length + 1 + u.length) } = [] :=
    fields_of_count hfresh
  obtain ⟨ls, e, b, h₃, he, hadd⟩ := lines_of_accept hlt₃ (hfields ▸ allowed_nil) h
  rw [hfields, List.nil_append] at hadd
  refine ⟨⟨m, u, v, ls, e, b, hm, hsp, hu, (uriStop_iff u).mp hstop, hlf, hv, hcr, hadd,
    (isBreak_iff e).mp he⟩, ?_⟩
  rw [Request.bytes, ← h₃, hy₃, ← h₂, hy₂, ← h₁, hy₁, ← h₀]
  rfl

/-- The message is a function of the bytes, wherever they lie. -/
theorem parse_message_congr {mem' : ℕ → UInt8} {raw' length' : ℕ} {ev' : HttpRequestEvent}
    (hbytes : slice (byte mem raw) 0 length = slice (byte mem' raw') 0 length')
    (hfresh : ev.headerCount = 0) (hfresh' : ev'.headerCount = 0)
    (h : (parse mem raw length ev).1 = true) :
    (parse mem raw length ev).2.message mem = (parse mem' raw' length' ev').2.message mem' := by
  obtain ⟨r, hr⟩ := request_of_accept hfresh h
  rw [(parse_request r hr.symm hfresh).2,
    (parse_request r (hbytes.symm.trans hr.symm) hfresh').2]

theorem http_grammar (mem : ℕ → UInt8) (raw length : ℕ) (ev : HttpRequestEvent)
    (hfresh : ev.headerCount = 0) :
    (parse mem raw length ev).1 = true ↔
      ∃ r : Request, r.bytes = slice (byte mem raw) 0 length := by
  constructor
  · exact request_of_accept hfresh
  · rintro ⟨r, hr⟩
    exact (parse_request r hr.symm hfresh).1

theorem http_grammar_smallest_request :
    (parse (memoryOf (ascii "G / H\n\n")) 0 7 (.unset 0)).1 = true ∧
      ∃ r : Request, r.bytes = slice (byte (memoryOf (ascii "G / H\n\n")) 0) 0 7 :=
  ⟨by decide, (http_grammar (memoryOf (ascii "G / H\n\n")) 0 7 (.unset 0) rfl).mp (by decide)⟩

end ConduitRuntime.Http
