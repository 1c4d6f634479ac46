import ConduitRuntime.Http.Parser

/-! How the parser's loop moves over the bytes. `go i p` is the loop from index `i` on with no fuel
in sight; the bytes still to be read are `rest i`. -/
namespace ConduitRuntime.Http
open Slices
set_option autoImplicit false

variable (mem : ℕ → UInt8) (raw length : ℕ)

def go (i : ℕ) (p : Parser) : Bool × HttpRequestEvent := loop mem raw length (length - i) i p

def rest (i : ℕ) : List UInt8 := slice (byte mem raw) i length

section Loop
variable {mem raw length}

/-- What an iteration that does not return can do. -/
inductive Advance (mem : ℕ → UInt8) (raw length i : ℕ) : Parser → ℕ → Parser → Prop
  | skip (p : Parser) : Advance mem raw length i p (i + 1) p
  | method (ts : ℕ) (sc : Bool) (ev : HttpRequestEvent) :
      Advance mem raw length i ⟨.method, ts, sc, ev⟩ (i + 1)
        ⟨.uri, i + 1, sc, { ev with method := viewOf raw ts i }⟩
  | uri (ts : ℕ) (sc : Bool) (ev : HttpRequestEvent) :
      Advance mem raw length i ⟨.uri, ts, sc, ev⟩ (i + 1)
        ⟨.version, i + 1, sc, { ev with uri := viewOf raw ts i }⟩
  | version (ts : ℕ) (sc : Bool) (ev : HttpRequestEvent) :
      Advance mem raw length i ⟨.version, ts, sc, ev⟩ (i + 1) ⟨.headerKey, i + 1, sc, ev⟩
  | blank (ts : ℕ) (sc : Bool) (ev : HttpRequestEvent) {k : ℕ}
      (hk : k = i + 1 ∨ k = i + 2 ∧ i + 1 < length) :
      Advance mem raw length i ⟨.headerKey, ts, sc, ev⟩ k ⟨.body, k, sc, ev⟩
  | key (ts : ℕ) (sc : Bool) (ev : HttpRequestEvent) (hroom : ev.headerCount < maxHeaders) :
      Advance mem raw length i ⟨.headerKey, ts, sc, ev⟩ (i + 1)
        ⟨.headerValue, i + 1, true, ev.setKey (viewOf raw ts i)⟩
  | value (ts : ℕ) (sc : Bool) (ev : HttpRequestEvent) :
      Advance mem raw length i ⟨.headerValue, ts, sc, ev⟩ (i + 1) ⟨.headerKey, i + 1, false,
        ev.setValue (viewOf raw (valueRange mem raw ts i).1 (valueRange mem raw ts i).2)⟩

/-- What an iteration can do: go on, reject and leave the event as it is, or accept. -/
inductive Iterated (mem : ℕ → UInt8) (raw length i : ℕ) (p : Parser) : Step → Prop
  | next {i' : ℕ} {p' : Parser} (h : Advance mem raw length i p i' p') :
      Iterated mem raw length i p (.next i' p')
  | reject : Iterated mem raw length i p (.exit false p.event)
  | accept (body : View) (h : p.state = .body) :
      Iterated mem raw length i p (.exit true { p.event with body := body })
  | done (h : p.state = .done) : Iterated mem raw length i p (.exit true p.event)

theorem step_iterated (mem : ℕ → UInt8) (raw length i : ℕ) (p : Parser) :
    Iterated mem raw length i p (step mem raw length i p) := by
  obtain ⟨state, ts, sc, ev⟩ := p
  cases state with
  | method =>
    simp only [step, stepMethod]
    split_ifs
    · exact .reject
    · exact .next (.method ts sc ev)
    · exact .next (.skip _)
  | uri =>
    simp only [step, stepUri]
    split_ifs
    · exact .reject
    · exact .next (.uri ts sc ev)
    · exact .reject
    · exact .next (.skip _)
  | version =>
    simp only [step, stepVersion]
    split_ifs
    · exact .reject
    · exact .reject
    · exact .next (.version ts sc ev)
    · exact .next (.skip _)
  | headerKey =>
    simp only [step, stepHeaderKey]
    split_ifs with _ _ hcrlf _ _ hfull
    · exact .next (.blank ts sc ev (.inr ⟨rfl, hcrlf.2.1⟩))
    · exact .next (.blank ts sc ev (.inl rfl))
    · exact .reject
    · exact .next (.skip _)
    · exact .reject
    · exact .reject
    · exact .reject
    · exact .reject
    · exact .reject
    · exact .next (.key ts sc ev (Nat.lt_of_not_le hfull))
    · exact .next (.skip _)
  | headerValue =>
    simp only [step, stepHeaderValue]
    split_ifs
    · exact .reject
    · exact .reject
    · exact .next (.value ts sc ev)
    · exact .next (.skip _)
  | body => exact .accept _ rfl
  | done => exact .done rfl

theorem advance_of_step {i i' : ℕ} {p p' : Parser} (h : step mem raw length i p = .next i' p') :
    Advance mem raw length i p i' p' := by
  have hstep := step_iterated mem raw length i p
  rw [h] at hstep
  cases hstep with
  | next hadvance => exact hadvance

theorem state_of_accept {i : ℕ} {p : Parser} {event : HttpRequestEvent}
    (h : step mem raw length i p = .exit true event) : p.state = .body ∨ p.state = .done := by
  have hstep := step_iterated mem raw length i p
  rw [h] at hstep
  cases hstep with
  | accept body hstate => exact .inl hstate
  | done hstate => exact .inr hstate

theorem lt_of_step {i i' : ℕ} {p p' : Parser} (h : step mem raw length i p = .next i' p') :
    i < i' := by
  cases advance_of_step h with
  | blank ts sc ev hk => omega
  | _ => exact Nat.lt_succ_self i

theorem loop_of_end {fuel i : ℕ} {p : Parser} (h : length ≤ i) :
    loop mem raw length fuel i p = finish p := by
  cases fuel with
  | zero => rfl
  | succ fuel => simp [loop, Nat.not_lt.mpr h]

theorem loop_fuel {fuel fuel' i : ℕ} {p : Parser} (h : length - i ≤ fuel)
    (h' : length - i ≤ fuel') :
    loop mem raw length fuel i p = loop mem raw length fuel' i p := by
  induction fuel generalizing fuel' i p with
  | zero => rw [loop_of_end (by omega), loop_of_end (by omega)]
  | succ fuel ih =>
    by_cases hi : i < length
    · obtain ⟨k, rfl⟩ : ∃ k, fuel' = k + 1 := ⟨fuel' - 1, by omega⟩
      simp only [loop, hi, if_true]
      cases hs : step mem raw length i p with
      | exit result event => rfl
      | next i' p' =>
        have hlt := lt_of_step hs
        exact ih (by omega) (by omega)
    · rw [loop_of_end (by omega), loop_of_end (by omega)]

theorem go_end {i : ℕ} {p : Parser} (h : length ≤ i) : go mem raw length i p = finish p :=
  loop_of_end h

theorem go_exit {i : ℕ} {p : Parser} {result : Bool} {event : HttpRequestEvent} (hi : i < length)
    (h : step mem raw length i p = .exit result event) :
    go mem raw length i p = (result, event) := by
  obtain ⟨k, hk⟩ : ∃ k, length - i = k + 1 := ⟨length - i - 1, by omega⟩
  simp only [go, hk, loop, hi, if_true, h]

theorem go_next {i i' : ℕ} {p p' : Parser} (hi : i < length)
    (h : step mem raw length i p = .next i' p') :
    go mem raw length i p = go mem raw length i' p' := by
  have hlt := lt_of_step h
  obtain ⟨k, hk⟩ : ∃ k, length - i = k + 1 := ⟨length - i - 1, by omega⟩
  simp only [go, hk, loop, hi, if_true, h]
  exact loop_fuel (by omega) (by omega)

theorem not_accept_of_exit {i : ℕ} {p : Parser} (hi : i < length)
    (h : step mem raw length i p = .exit false p.event) : (go mem raw length i p).1 ≠ true := by
  rw [go_exit hi h]
  exact Bool.false_ne_true

/-- Bytes the current state has no use for. -/
theorem go_skip {i j : ℕ} {p : Parser} (hij : i ≤ j) (hj : j ≤ length)
    (h : ∀ k, i ≤ k → k < j → step mem raw length k p = .next (k + 1) p) :
    go mem raw length i p = go mem raw length j p := by
  induction j, hij using Nat.le_induction with
  | base => rfl
  | succ j hij ih =>
    rw [ih (by omega) fun k hk hk' => h k hk (by omega)]
    exact go_next (by omega) (h j hij (Nat.lt_succ_self j))

theorem step_connectionId (mem : ℕ → UInt8) (raw length i : ℕ) (p : Parser) :
    match step mem raw length i p with
    | .exit _ event => event.connectionId = p.event.connectionId
    | .next _ p' => p'.event.connectionId = p.event.connectionId := by
  have hstep := step_iterated mem raw length i p
  generalize step mem raw length i p = r at hstep ⊢
  cases hstep with
  | next h => cases h <;> rfl
  | reject => rfl
  | accept body h => rfl
  | done h => rfl

theorem loop_connectionId (fuel i : ℕ) (p : Parser) :
    (loop mem raw length fuel i p).2.connectionId = p.event.connectionId := by
  have hfinish : ∀ p : Parser, (finish p).2.connectionId = p.event.connectionId := by
    intro p
    unfold finish
    split <;> rfl
  induction fuel generalizing i p with
  | zero => exact hfinish p
  | succ fuel ih =>
    by_cases hi : i < length
    · have hstep := step_connectionId mem raw length i p
      simp only [loop, hi, if_true]
      cases hs : step mem raw length i p with
      | exit result event => simpa only [hs] using hstep
      | next i' p' =>
        rw [hs] at hstep
        exact (ih i' p').trans hstep
    · rw [loop_of_end (Nat.le_of_not_lt hi)]
      exact hfinish p

theorem parse_connectionId (event : HttpRequestEvent) :
    (parse mem raw length event).2.connectionId = event.connectionId := loop_connectionId _ _ _

theorem parse_eq_go (event : HttpRequestEvent) :
    parse mem raw length event = go mem raw length 0 ⟨.method, 0, false, event⟩ := rfl

end Loop

/-! ## Splitting the bytes to come at the first delimiter -/

section Split
variable {mem raw length}

theorem rest_nil {i : ℕ} (h : length ≤ i) : rest mem raw length i = [] := slice_of_le _ h

theorem rest_cons {i : ℕ} (h : i < length) :
    rest mem raw length i = byte mem raw i :: rest mem raw length (i + 1) := slice_cons _ h

/-- Either no byte to come meets `d`, or the bytes split at the first that does. -/
theorem rest_split (d : UInt8 → Bool) {i : ℕ} (hi : i ≤ length) :
    (∀ c ∈ rest mem raw length i, d c = false) ∨
      ∃ x c y, rest mem raw length i = x ++ c :: y ∧ d c = true ∧ ∀ b ∈ x, d b = false := by
  rcases none_or_first (fun k => d (byte mem raw k) = true) hi with
    hnone | ⟨j, hij, hj, hd, hbefore⟩
  · refine .inl fun c hc => ?_
    obtain ⟨k, hk, hk', rfl⟩ := (mem_slice _).mp hc
    exact Bool.eq_false_iff.mpr (hnone k hk hk')
  · refine .inr ⟨slice (byte mem raw) i j, byte mem raw j, rest mem raw length (j + 1), ?_, hd, ?_⟩
    · rw [← rest_cons hj]
      exact slice_append _ hij (by omega)
    · intro b hb
      obtain ⟨k, hk, hk', rfl⟩ := (mem_slice _).mp hb
      exact Bool.eq_false_iff.mpr (hbefore k hk hk')

/-- Where the parts of a split lie in the buffer. -/
theorem rest_eq_append {i : ℕ} {x : List UInt8} {c : UInt8} {y : List UInt8} (hi : i ≤ length)
    (h : rest mem raw length i = x ++ c :: y) :
    i + x.length < length ∧ slice (byte mem raw) i (i + x.length) = x ∧
      byte mem raw (i + x.length) = c ∧ rest mem raw length (i + x.length + 1) = y := by
  obtain ⟨_, hx, hy⟩ := slice_eq_append _ hi h
  obtain ⟨hlt, hc, hy⟩ := slice_eq_cons _ hy
  exact ⟨hlt, hx, hc, hy⟩

theorem forall_ne_iff {c : UInt8} {x : List UInt8} :
    (∀ b ∈ x, decide (b = c) = false) ↔ c ∉ x := by
  simp only [decide_eq_false_iff_not]
  exact ⟨fun h hc => h c hc rfl, fun h b hb e => h (e ▸ hb)⟩

/-- A state that skips the bytes outside `d` stands still up to the first byte of `d`. -/
theorem go_to (d : UInt8 → Bool) {i : ℕ} {p : Parser} {x : List UInt8} {c : UInt8} {y : List UInt8}
    (hskip : ∀ k, d (byte mem raw k) = false → step mem raw length k p = .next (k + 1) p)
    (hi : i ≤ length) (h : rest mem raw length i = x ++ c :: y) (hx : ∀ b ∈ x, d b = false) :
    go mem raw length i p = go mem raw length (i + x.length) p := by
  obtain ⟨hlt, hslice, _, _⟩ := rest_eq_append hi h
  refine go_skip (by omega) hlt.le fun k hk hk' => hskip k (hx _ ?_)
  rw [← hslice]
  exact (mem_slice _).mpr ⟨k, hk, hk', rfl⟩

theorem split_of_accept (d : UInt8 → Bool) {i : ℕ} {p : Parser}
    (hskip : ∀ k, d (byte mem raw k) = false → step mem raw length k p = .next (k + 1) p)
    (hend : (finish p).1 = false) (hi : i ≤ length) (h : (go mem raw length i p).1 = true) :
    ∃ x c y, rest mem raw length i = x ++ c :: y ∧ d c = true ∧ (∀ b ∈ x, d b = false) ∧
      (go mem raw length (i + x.length) p).1 = true := by
  rcases rest_split d hi with hnone | ⟨x, c, y, hrest, hc, hx⟩
  · have hstay : go mem raw length i p = go mem raw length length p :=
      go_skip hi le_rfl fun k hk hk' => hskip k (hnone _ ((mem_slice _).mpr ⟨k, hk, hk', rfl⟩))
    rw [hstay, go_end le_rfl, hend] at h
    cases h
  · exact ⟨x, c, y, hrest, hc, hx, by rwa [← go_to d hskip hi hrest hx]⟩

theorem viewOf_read {a b : ℕ} (h : a ≤ b) :
    (viewOf raw a b).read mem = slice (byte mem raw) a b := by
  have hb : raw + a + (b - a) = raw + b := by omega
  simp only [View.read, viewOf, hb]
  exact (slice_shift mem raw a b).symm

end Split

/-! ## The request line -/

section RequestLine
variable {mem raw length} {ts : ℕ} {sc : Bool} {ev : HttpRequestEvent} {x y : List UInt8}

theorem skip_method {k : ℕ} (h : decide (byte mem raw k = sp) = false) :
    step mem raw length k ⟨.method, ts, sc, ev⟩ = .next (k + 1) ⟨.method, ts, sc, ev⟩ :=
  if_neg (of_decide_eq_false h)

theorem go_method (hts : ts ≤ length) (h : rest mem raw length ts = x ++ sp :: y) (hx : sp ∉ x)
    (hne : x ≠ []) :
    go mem raw length ts ⟨.method, ts, sc, ev⟩ =
      go mem raw length (ts + x.length + 1) ⟨.uri, ts + x.length + 1, sc,
        { ev with method := viewOf raw ts (ts + x.length) }⟩ := by
  obtain ⟨hlt, _, hsp, _⟩ := rest_eq_append hts h
  have hpos : x.length ≠ 0 := fun e => hne (List.length_eq_zero_iff.mp e)
  rw [go_to (fun b => decide (b = sp)) (fun _ => skip_method) hts h (forall_ne_iff.mpr hx)]
  refine go_next hlt ?_
  simp only [step, stepMethod, hsp, if_true, if_neg (show ts + x.length ≠ ts by omega)]

theorem method_of_accept (hts : ts ≤ length)
    (h : (go mem raw length ts ⟨.method, ts, sc, ev⟩).1 = true) :
    ∃ x y, rest mem raw length ts = x ++ sp :: y ∧ sp ∉ x ∧ x ≠ [] := by
  obtain ⟨x, c, y, hrest, hc, hx, hgo⟩ :=
    split_of_accept (fun b => decide (b = sp)) (fun _ => skip_method) rfl hts h
  obtain rfl : c = sp := of_decide_eq_true hc
  refine ⟨x, y, hrest, forall_ne_iff.mp hx, ?_⟩
  rintro rfl
  obtain ⟨hlt, hsp, _⟩ := slice_eq_cons _ hrest
  exact not_accept_of_exit hlt (by simp [step, stepMethod, hsp]) hgo

/-- The bytes the `URI` state acts on. -/
def uriStop (c : UInt8) : Bool := c = sp || isBreak c

theorem skip_uri {k : ℕ} (h : uriStop (byte mem raw k) = false) :
    step mem raw length k ⟨.uri, ts, sc, ev⟩ = .next (k + 1) ⟨.uri, ts, sc, ev⟩ := by
  obtain ⟨hsp, hbreak⟩ := Bool.or_eq_false_iff.mp h
  simp only [step, stepUri, if_neg (of_decide_eq_false hsp), hbreak, Bool.false_eq_true, if_false]

theorem go_uri (hts : ts ≤ length) (h : rest mem raw length ts = x ++ sp :: y)
    (hx : ∀ b ∈ x, uriStop b = false) (hne : x ≠ []) :
    go mem raw length ts ⟨.uri, ts, sc, ev⟩ =
      go mem raw length (ts + x.length + 1) ⟨.version, ts + x.length + 1, sc,
        { ev with uri := viewOf raw ts (ts + x.length) }⟩ := by
  obtain ⟨hlt, _, hsp, _⟩ := rest_eq_append hts h
  have hpos : x.length ≠ 0 := fun e => hne (List.length_eq_zero_iff.mp e)
  rw [go_to uriStop (fun _ => skip_uri) hts h hx]
  refine go_next hlt ?_
  simp only [step, stepUri, hsp, if_true, if_neg (show ts + x.length ≠ ts by omega)]

theorem uri_of_accept (hts : ts ≤ length)
    (h : (go mem raw length ts ⟨.uri, ts, sc, ev⟩).1 = true) :
    ∃ x y, rest mem raw length ts = x ++ sp :: y ∧ (∀ b ∈ x, uriStop b = false) ∧ x ≠ [] := by
  obtain ⟨x, c, y, hrest, hc, hx, hgo⟩ := split_of_accept uriStop (fun _ => skip_uri) rfl hts h
  by_cases hsp : c = sp
  · subst hsp
    refine ⟨x, y, hrest, hx, ?_⟩
    rintro rfl
    obtain ⟨hlt, hsp, _⟩ := slice_eq_cons _ hrest
    exact absurd hgo (not_accept_of_exit hlt (by simp [step, stepUri, hsp]))
  · obtain ⟨hlt, _, hbyte, _⟩ := rest_eq_append hts hrest
    have hbreak : isBreak c = true := by simpa [uriStop, hsp] using hc
    exact absurd hgo (not_accept_of_exit hlt (by simp [step, stepUri, hbyte, hsp, hbreak]))

theorem skip_version {k : ℕ} (h : decide (byte mem raw k = lf) = false) :
    step mem raw length k ⟨.version, ts, sc, ev⟩ = .next (k + 1) ⟨.version, ts, sc, ev⟩ :=
  if_neg (of_decide_eq_false h)

/-- The second test of the `VERSION` state: the version is a lone CR. -/
theorem lone_cr_iff (hts : ts ≤ length) {c : UInt8}
    (h : rest mem raw length ts = x ++ c :: y) :
    ts + x.length = ts + 1 ∧ byte mem raw ts = cr ↔ x = [cr] := by
  obtain ⟨_, hx, _, _⟩ := rest_eq_append hts h
  constructor
  · rintro ⟨hlen, hcr⟩
    rw [hlen, slice_cons _ (Nat.lt_succ_self ts), slice_of_le _ le_rfl, hcr] at hx
    exact hx.symm
  · rintro rfl
    obtain ⟨_, hcr, _⟩ := slice_eq_cons _ hx
    exact ⟨rfl, hcr⟩

theorem go_version (hts : ts ≤ length) (h : rest mem raw length ts = x ++ lf :: y) (hx : lf ∉ x)
    (hne : x ≠ []) (hcr : x ≠ [cr]) :
    go mem raw length ts ⟨.version, ts, sc, ev⟩ =
      go mem raw length (ts + x.length + 1) ⟨.headerKey, ts + x.length + 1, sc, ev⟩ := by
  obtain ⟨hlt, _, hlf, _⟩ := rest_eq_append hts h
  have hpos : x.length ≠ 0 := fun e => hne (List.length_eq_zero_iff.mp e)
  rw [go_to (fun b => decide (b = lf)) (fun _ => skip_version) hts h (forall_ne_iff.mpr hx)]
  refine go_next hlt ?_
  simp only [step, stepVersion, hlf, if_true, if_neg (show ts + x.length ≠ ts by omega),
    lone_cr_iff hts h, if_neg hcr]

theorem version_of_accept (hts : ts ≤ length)
    (h : (go mem raw length ts ⟨.version, ts, sc, ev⟩).1 = true) :
    ∃ x y, rest mem raw length ts = x ++ lf :: y ∧ lf ∉ x ∧ x ≠ [] ∧ x ≠ [cr] := by
  obtain ⟨x, c, y, hrest, hc, hx, hgo⟩ :=
    split_of_accept (fun b => decide (b = lf)) (fun _ => skip_version) rfl hts h
  obtain rfl : c = lf := of_decide_eq_true hc
  refine ⟨x, y, hrest, forall_ne_iff.mp hx, ?_, ?_⟩
  · rintro rfl
    obtain ⟨hlt, hlf, _⟩ := slice_eq_cons _ hrest
    exact not_accept_of_exit hlt (by simp [step, stepVersion, hlf]) hgo
  · intro hcr
    obtain ⟨hlt, _, hlf, _⟩ := rest_eq_append hts hrest
    have hpos : ts + x.length ≠ ts := by simp [hcr]
    refine not_accept_of_exit hlt ?_ hgo
    simp only [step, stepVersion, hlf, if_true, if_neg hpos, lone_cr_iff hts hrest, if_pos hcr]

end RequestLine

end ConduitRuntime.Http
