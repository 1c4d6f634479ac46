import ConduitRuntime.Http.Run

/-! What a parse takes over from the event it is given. Two runs over the same bytes are compared
step by step; they can differ only in the headers the events already count. -/
namespace ConduitRuntime.Http
open Slices
set_option autoImplicit false

/-- The same headers, as far as the count and the array reach. -/
structure SameHeaders (ev ev' : HttpRequestEvent) : Prop where
  count : ev.headerCount = ev'.headerCount
  headers : ∀ j, j < ev.headerCount → j < maxHeaders → ev.headers j = ev'.headers j

/-- The same method, URI, headers and body. -/
structure SameContent (ev ev' : HttpRequestEvent) : Prop extends SameHeaders ev ev' where
  method : ev.method = ev'.method
  uri : ev.uri = ev'.uri
  body : ev.body = ev'.body

/-- The same result, and the same content where it is `true`. -/
def SameResult (a b : Bool × HttpRequestEvent) : Prop :=
  a.1 = b.1 ∧ (a.1 = true → SameContent a.2 b.2)

/-! ## Two runs in lockstep -/

/-- What the events of two runs that are in state `s` have in common. -/
structure Common (s : State) (ev ev' : HttpRequestEvent) : Prop where
  same : SameHeaders ev ev'
  method : s ≠ .method → ev.method = ev'.method
  uri : s ≠ .method → s ≠ .uri → ev.uri = ev'.uri
  key : s = .headerValue →
    (ev.headers ev.headerCount).key = (ev'.headers ev.headerCount).key
  running : s ≠ .done

inductive Lockstep : Step → Step → Prop
  | reject (ev ev' : HttpRequestEvent) : Lockstep (.exit false ev) (.exit false ev')
  | accept {ev ev' : HttpRequestEvent} (h : SameContent ev ev') :
      Lockstep (.exit true ev) (.exit true ev')
  | next {i ts : ℕ} {s : State} {sc : Bool} {ev ev' : HttpRequestEvent} (h : Common s ev ev') :
      Lockstep (.next i ⟨s, ts, sc, ev⟩) (.next i ⟨s, ts, sc, ev'⟩)

section Step
variable {mem : ℕ → UInt8} {raw length i ts : ℕ} {s : State} {sc : Bool}
  {ev ev' : HttpRequestEvent}

theorem method_lockstep (h : Common .method ev ev') :
    Lockstep (stepMethod mem raw i ⟨.method, ts, sc, ev⟩)
      (stepMethod mem raw i ⟨.method, ts, sc, ev'⟩) := by
  unfold stepMethod
  dsimp only
  split_ifs
  · exact .reject _ _
  · refine .next ⟨⟨h.same.count, h.same.headers⟩, fun _ => rfl, ?_, nofun, nofun⟩
    intro _ huri
    exact absurd rfl huri
  · exact .next h

theorem uri_lockstep (h : Common .uri ev ev') :
    Lockstep (stepUri mem raw i ⟨.uri, ts, sc, ev⟩) (stepUri mem raw i ⟨.uri, ts, sc, ev'⟩) := by
  unfold stepUri
  dsimp only
  split_ifs
  · exact .reject _ _
  · refine .next ⟨⟨h.same.count, h.same.headers⟩, ?_, fun _ _ => rfl, nofun, nofun⟩
    intro _
    exact h.method nofun
  · exact .reject _ _
  · exact .next h

/-- A state after the request line takes over what the state before it had. -/
theorem Common.advance {t : State} (h : Common s ev ev') (hs : s ≠ .method ∧ s ≠ .uri)
    (ht : t ≠ .headerValue ∧ t ≠ .done) : Common t ev ev' :=
  ⟨h.same, fun _ => h.method hs.1, fun _ _ => h.uri hs.1 hs.2, fun e => absurd e ht.1, ht.2⟩

theorem version_lockstep (h : Common .version ev ev') :
    Lockstep (stepVersion mem raw i ⟨.version, ts, sc, ev⟩)
      (stepVersion mem raw i ⟨.version, ts, sc, ev'⟩) := by
  unfold stepVersion
  dsimp only
  split_ifs
  · exact .reject _ _
  · exact .reject _ _
  · exact .next (h.advance ⟨nofun, nofun⟩ ⟨nofun, nofun⟩)
  · exact .next h

theorem injection_congr (h : SameHeaders ev ev') (hroom : ev.headerCount < maxHeaders)
    (key : View) : injection mem ev key = injection mem ev' key := by
  unfold injection
  rw [← h.count]
  by_cases hpos : 0 < ev.headerCount
  · rw [h.headers _ (by omega) (by omega)]
  · simp only [hpos, decide_false, Bool.false_and]

theorem SameHeaders.setKey (h : SameHeaders ev ev') (key : View) :
    SameHeaders (ev.setKey key) (ev'.setKey key) := by
  refine ⟨h.count, fun j hj hmax => ?_⟩
  have hne : j ≠ ev.headerCount := Nat.ne_of_lt hj
  simp only [HttpRequestEvent.setKey, ← h.count, Function.update_of_ne hne]
  exact h.headers j hj hmax

theorem setKey_key (h : SameHeaders ev ev') (key : View) :
    ((ev.setKey key).headers (ev.setKey key).headerCount).key =
      ((ev'.setKey key).headers (ev.setKey key).headerCount).key := by
  simp only [HttpRequestEvent.setKey, ← h.count, Function.update_self]

theorem headerKey_lockstep (h : Common .headerKey ev ev') :
    Lockstep (stepHeaderKey mem raw length i ⟨.headerKey, ts, sc, ev⟩)
      (stepHeaderKey mem raw length i ⟨.headerKey, ts, sc, ev'⟩) := by
  unfold stepHeaderKey
  dsimp only
  rw [← h.same.count]
  by_cases hbreak : isBreak (byte mem raw i) = true
  · rw [if_pos hbreak, if_pos hbreak]
    split_ifs
    · exact .next (h.advance ⟨nofun, nofun⟩ ⟨nofun, nofun⟩)
    · exact .next (h.advance ⟨nofun, nofun⟩ ⟨nofun, nofun⟩)
    · exact .reject _ _
    · exact .next h
  rw [if_neg hbreak, if_neg hbreak]
  by_cases hcolon : byte mem raw i = colon
  · rw [if_pos hcolon, if_pos hcolon]
    by_cases hfull : maxHeaders ≤ ev.headerCount
    · rw [if_pos hfull, if_pos hfull]
      exact .reject _ _
    -- the count has been tested, so the previous key is one that both events have in common
    rw [if_neg hfull, if_neg hfull, injection_congr h.same (Nat.lt_of_not_le hfull)]
    split_ifs
    · exact .reject _ _
    · exact .reject _ _
    · exact .reject _ _
    · exact .reject _ _
    · refine .next ⟨h.same.setKey _, ?_, ?_, fun _ => setKey_key h.same _, nofun⟩
      · intro _
        exact h.method nofun
      · intro _ _
        exact h.uri nofun nofun
  · rw [if_neg hcolon, if_neg hcolon]
    exact .next h

theorem SameHeaders.setValue (h : SameHeaders ev ev')
    (hkey : (ev.headers ev.headerCount).key = (ev'.headers ev.headerCount).key) (value : View) :
    SameHeaders (ev.setValue value) (ev'.setValue value) := by
  refine ⟨congrArg (· + 1) h.count, fun j hj hmax => ?_⟩
  simp only [HttpRequestEvent.setValue] at hj ⊢
  rw [← h.count]
  by_cases he : j = ev.headerCount
  · rw [he, Function.update_self, Function.update_self, hkey]
  · rw [Function.update_of_ne he, Function.update_of_ne he]
    exact h.headers j (by omega) hmax

theorem headerValue_lockstep (h : Common .headerValue ev ev') :
    Lockstep (stepHeaderValue mem raw i ⟨.headerValue, ts, sc, ev⟩)
      (stepHeaderValue mem raw i ⟨.headerValue, ts, sc, ev'⟩) := by
  unfold stepHeaderValue
  dsimp only
  rw [← h.same.count, ← h.key rfl]
  split_ifs
  · exact .reject _ _
  · exact .reject _ _
  · refine .next ⟨h.same.setValue (h.key rfl) _, ?_, ?_, nofun, nofun⟩
    · intro _
      exact h.method nofun
    · intro _ _
      exact h.uri nofun nofun
  · exact .next h

theorem Common.content (h : Common .body ev ev') (body : View) :
    SameContent { ev with body := body } { ev' with body := body } :=
  ⟨⟨h.same.count, h.same.headers⟩, h.method nofun, h.uri nofun nofun, rfl⟩

/-- One iteration on the same byte keeps two runs together. -/
theorem step_lockstep (mem : ℕ → UInt8) (raw length i ts : ℕ) (sc : Bool)
    (h : Common s ev ev') :
    Lockstep (step mem raw length i ⟨s, ts, sc, ev⟩) (step mem raw length i ⟨s, ts, sc, ev'⟩) := by
  cases s with
  | method => exact method_lockstep h
  | uri => exact uri_lockstep h
  | version => exact version_lockstep h
  | headerKey => exact headerKey_lockstep h
  | headerValue => exact headerValue_lockstep h
  | body => exact .accept (h.content _)
  | done => exact absurd rfl h.running

end Step

section Run
variable {mem : ℕ → UInt8} {raw length : ℕ} {s : State} {ts : ℕ} {sc : Bool}
  {ev ev' : HttpRequestEvent}

theorem finish_same (h : Common s ev ev') :
    SameResult (finish ⟨s, ts, sc, ev⟩) (finish ⟨s, ts, sc, ev'⟩) := by
  unfold finish
  dsimp only
  by_cases hbody : s = .body
  · subst hbody
    exact ⟨rfl, fun _ => h.content _⟩
  · rw [if_neg hbody, if_neg hbody]
    refine ⟨rfl, fun hdone => ?_⟩
    exact absurd (of_decide_eq_true hdone) h.running

theorem loop_same (fuel i : ℕ) (h : Common s ev ev') :
    SameResult (loop mem raw length fuel i ⟨s, ts, sc, ev⟩)
      (loop mem raw length fuel i ⟨s, ts, sc, ev'⟩) := by
  induction fuel generalizing i s ts sc ev ev' with
  | zero => exact finish_same h
  | succ fuel ih =>
    by_cases hi : i < length
    · have hstep := step_lockstep mem raw length i ts sc h
      simp only [loop, hi, if_true]
      generalize step mem raw length i ⟨s, ts, sc, ev⟩ = a at hstep ⊢
      generalize step mem raw length i ⟨s, ts, sc, ev'⟩ = b at hstep ⊢
      cases hstep with
      | reject ev ev' => exact ⟨rfl, fun hdone => absurd hdone Bool.false_ne_true⟩
      | accept hsame => exact ⟨rfl, fun _ => hsame⟩
      | next hnext => exact ih _ hnext
    · rw [loop_of_end (Nat.le_of_not_lt hi), loop_of_end (Nat.le_of_not_lt hi)]
      exact finish_same h

theorem parse_same (h : SameHeaders ev ev') :
    SameResult (parse mem raw length ev) (parse mem raw length ev') := by
  refine loop_same _ _ ⟨h, ?_, ?_, nofun, nofun⟩
  · intro hs
    exact absurd rfl hs
  · intro hs _
    exact absurd rfl hs

/-- A request without headers leaves the event's headers as they are. -/
theorem parse_headerless (ev : HttpRequestEvent) :
    parse (memoryOf (ascii "G / H\n\n")) 0 7 ev =
      (true, { ev with method := viewOf 0 0 1, uri := viewOf 0 2 3, body := .null }) := rfl

/-- Parses into two events agree on all inputs exactly when the events count the same headers. -/
theorem parse_independence (ev ev' : HttpRequestEvent) :
    (∀ (mem : ℕ → UInt8) (raw length : ℕ),
      SameResult (parse mem raw length ev) (parse mem raw length ev')) ↔ SameHeaders ev ev' := by
  constructor
  · intro h
    have hsame := h (memoryOf (ascii "G / H\n\n")) 0 7
    rw [parse_headerless, parse_headerless] at hsame
    obtain ⟨_, hcontent⟩ := hsame
    exact ⟨(hcontent rfl).count, (hcontent rfl).headers⟩
  · intro h mem raw length
    exact parse_same h

/-- The event an earlier request with one header left behind. -/
def leftover : HttpRequestEvent := (parse (memoryOf (ascii "G / H\nA:b\n\n")) 0 11 (.unset 0)).2

/-- The same request parsed into a fresh event and into one that was used before. -/
theorem leftover_header_remains :
    (parse (memoryOf (ascii "P /x H\n\n")) 0 8 (.unset 0)).1 = true ∧
      (parse (memoryOf (ascii "P /x H\n\n")) 0 8 leftover).1 = true ∧
      (parse (memoryOf (ascii "P /x H\n\n")) 0 8 (.unset 0)).2.headerCount = 0 ∧
      (parse (memoryOf (ascii "P /x H\n\n")) 0 8 leftover).2.headerCount = 1 := by
  decide

end Run

end ConduitRuntime.Http
