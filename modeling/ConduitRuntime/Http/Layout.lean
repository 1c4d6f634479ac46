import ConduitRuntime.Http.Checked

/-! Where the views of an accepted request lie in the buffer: one after the other, in the order of
the request. -/
namespace ConduitRuntime.Http
open Slices
set_option autoImplicit false

/-! ## Views laid out from one address to another -/

/-- The views follow one another, from `lo` on and up to `hi`. -/
def Laid : ℕ → ℕ → List View → Prop
  | lo, hi, [] => lo ≤ hi
  | lo, hi, v :: vs => lo ≤ v.ptr ∧ Laid (v.ptr + v.len) hi vs

theorem Laid.le {lo hi : ℕ} {vs : List View} (h : Laid lo hi vs) : lo ≤ hi := by
  induction vs generalizing lo with
  | nil => exact h
  | cons v vs ih =>
    have htail := ih h.2
    have hlo := h.1
    omega

theorem Laid.snoc {lo mid hi : ℕ} {vs : List View} {v : View} (h : Laid lo mid vs)
    (hv : mid ≤ v.ptr) (hhi : v.ptr + v.len ≤ hi) : Laid lo hi (vs ++ [v]) := by
  induction vs generalizing lo with
  | nil => exact ⟨Nat.le_trans h hv, hhi⟩
  | cons u vs ih => exact ⟨h.1, ih h.2⟩

theorem Laid.mono {lo mid hi : ℕ} {vs : List View} (h : Laid lo mid vs) (hhi : mid ≤ hi) :
    Laid lo hi vs := by
  induction vs generalizing lo with
  | nil => exact Nat.le_trans h hhi
  | cons u vs ih => exact ⟨h.1, ih h.2⟩

theorem Laid.within {lo hi : ℕ} {vs : List View} (h : Laid lo hi vs) {v : View} (hv : v ∈ vs) :
    lo ≤ v.ptr ∧ v.ptr + v.len ≤ hi := by
  induction vs generalizing lo with
  | nil => cases hv
  | cons u vs ih =>
    rcases List.mem_cons.mp hv with rfl | htail
    · exact ⟨h.1, h.2.le⟩
    · obtain ⟨hfrom, hto⟩ := ih h.2 htail
      have hlo := h.1
      exact ⟨by omega, hto⟩

theorem Laid.pairwise {lo hi : ℕ} {vs : List View} (h : Laid lo hi vs) :
    vs.Pairwise fun u v => u.ptr + u.len ≤ v.ptr := by
  induction vs generalizing lo with
  | nil => exact .nil
  | cons u vs ih => exact .cons (fun v hv => (h.2.within hv).1) (ih h.2)

/-! ## The views of an event -/

def HttpHeader.views (h : HttpHeader) : List View := [h.key, h.value]

def HttpRequestEvent.headerViews (ev : HttpRequestEvent) : List View :=
  (List.range ev.headerCount).flatMap fun j => (ev.headers j).views

/-- `method, uri, key_0, value_0, …` and a body that is not empty. -/
def HttpRequestEvent.views (ev : HttpRequestEvent) : List View :=
  [ev.method, ev.uri] ++ ev.headerViews ++ if ev.body.len = 0 then [] else [ev.body]

/-- The views that are set when the parser is in state `s`. -/
def seenViews (s : State) (ev : HttpRequestEvent) : List View :=
  match s with
  | .method => []
  | .uri => [ev.method]
  | .version => [ev.method, ev.uri]
  | .headerValue => [ev.method, ev.uri] ++ ev.headerViews ++ [(ev.headers ev.headerCount).key]
  | .headerKey | .body | .done => [ev.method, ev.uri] ++ ev.headerViews

theorem headerViews_of_count {ev : HttpRequestEvent} (h : ev.headerCount = 0) :
    ev.headerViews = [] := by
  rw [HttpRequestEvent.headerViews, h]
  rfl

/-- A write to the entry at the count does not touch the views before it. -/
theorem headerViews_update (ev : HttpRequestEvent) (h : HttpHeader) :
    ((List.range ev.headerCount).flatMap fun j =>
      (Function.update ev.headers ev.headerCount h j).views) = ev.headerViews := by
  refine List.flatMap_congr fun j hj => ?_
  rw [Function.update_of_ne (Nat.ne_of_lt (List.mem_range.mp hj))]

theorem setKey_seenViews (ev : HttpRequestEvent) (key : View) :
    seenViews .headerValue (ev.setKey key) = seenViews .headerKey ev ++ [key] := by
  have hviews : (ev.setKey key).headerViews = ev.headerViews := headerViews_update ev _
  have hkey : ((ev.setKey key).headers (ev.setKey key).headerCount).key = key := by
    simp only [HttpRequestEvent.setKey, Function.update_self]
  rw [seenViews, hviews, hkey]
  rfl

theorem setValue_seenViews (ev : HttpRequestEvent) (value : View) :
    seenViews .headerKey (ev.setValue value) = seenViews .headerValue ev ++ [value] := by
  have hviews : (ev.setValue value).headerViews =
      ev.headerViews ++ [(ev.headers ev.headerCount).key, value] := by
    rw [← headerViews_update ev ⟨(ev.headers ev.headerCount).key, value⟩]
    simp only [HttpRequestEvent.headerViews, HttpRequestEvent.setValue, List.range_succ,
      List.flatMap_append, List.flatMap_singleton, Function.update_self, HttpHeader.views]
  calc seenViews .headerKey (ev.setValue value)
      = [ev.method, ev.uri] ++ (ev.headerViews ++ [(ev.headers ev.headerCount).key, value]) :=
        congrArg ([ev.method, ev.uri] ++ ·) hviews
    _ = seenViews .headerValue ev ++ [value] := by
        simp only [seenViews, List.append_assoc, List.cons_append, List.nil_append]

/-! ## The parser lays its views out -/

/-- The views set so far end before the current token; before the header section there are no
headers. -/
structure LaidOut (raw : ℕ) (p : Parser) : Prop where
  laid : Laid raw (raw + p.tokenStart) (seenViews p.state p.event)
  fresh : p.state = .method ∨ p.state = .uri ∨ p.state = .version → p.event.headerCount = 0

section Run
variable {mem : ℕ → UInt8} {raw length : ℕ}

theorem Laid.skip {vs : List View} {ts k : ℕ} (h : Laid raw (raw + ts) vs) (hk : ts ≤ k) :
    Laid raw (raw + k) vs := h.mono (Nat.add_le_add_left hk raw)

/-- A token added after the views so far, the next token starting behind it. -/
theorem Laid.token {vs : List View} {ts i a b : ℕ} (h : Laid raw (raw + ts) vs) (hts : ts ≤ a)
    (hab : a ≤ b) (hb : b ≤ i) : Laid raw (raw + (i + 1)) (vs ++ [viewOf raw a b]) := by
  refine h.snoc ?_ ?_
  · simp only [viewOf]
    omega
  · simp only [viewOf]
    omega

theorem step_laidOut {i i' : ℕ} {p p' : Parser} (h : LaidOut raw p) (hstart : p.tokenStart ≤ i)
    (hstep : step mem raw length i p = .next i' p') : LaidOut raw p' := by
  obtain ⟨hlaid, hfresh⟩ := h
  cases advance_of_step hstep with
  | skip p => exact ⟨hlaid, hfresh⟩
  | method ts sc ev => exact ⟨hlaid.token le_rfl hstart le_rfl, fun _ => hfresh (.inl rfl)⟩
  | uri ts sc ev => exact ⟨hlaid.token le_rfl hstart le_rfl, fun _ => hfresh (.inr (.inl rfl))⟩
  | version ts sc ev =>
    refine ⟨?_, by simp⟩
    rw [seenViews, headerViews_of_count (hfresh (.inr (.inr rfl))), List.append_nil]
    exact hlaid.skip (Nat.le_add_right_of_le hstart)
  | blank ts sc ev hk =>
    have hle : ts ≤ i := hstart
    exact ⟨hlaid.skip (show ts ≤ i' by omega), by simp⟩
  | key ts sc ev hroom =>
    refine ⟨?_, by simp⟩
    rw [setKey_seenViews]
    exact hlaid.token le_rfl hstart le_rfl
  | value ts sc ev =>
    -- trimming only moves the two ends of the value towards each other
    obtain ⟨hfrom, hle, hto, _⟩ := valueRange_spec mem raw hstart
    refine ⟨?_, by simp⟩
    rw [setValue_seenViews]
    exact hlaid.token hfrom hle hto

/-- The result of a parse, if it is `true`, is an event whose views are laid out in the buffer. -/
def ResultLaid (raw length : ℕ) (r : Bool × HttpRequestEvent) : Prop :=
  r.1 = true → Laid raw (raw + length) r.2.views

theorem body_laid {ev : HttpRequestEvent} {ts : ℕ} {body : View}
    (h : Laid raw (raw + ts) (seenViews .body ev)) (hts : ts ≤ length)
    (hfrom : body.len ≠ 0 → raw + ts ≤ body.ptr)
    (hto : body.len ≠ 0 → body.ptr + body.len ≤ raw + length) :
    Laid raw (raw + length) { ev with body := body }.views := by
  by_cases hempty : body.len = 0
  · simp only [HttpRequestEvent.views, if_pos hempty, List.append_nil]
    exact h.skip hts
  · simp only [HttpRequestEvent.views, if_neg hempty]
    exact h.snoc (hfrom hempty) (hto hempty)

theorem finish_laid {i : ℕ} {p : Parser} (hb : InBounds raw length i p) (h : LaidOut raw p) :
    ResultLaid raw length (finish p) := by
  intro hacc
  unfold finish at hacc ⊢
  by_cases hstate : p.state = .body
  · rw [if_pos hstate]
    have hlaid := h.laid
    rw [hstate] at hlaid
    exact body_laid hlaid (hb.start.trans hb.le) (fun hne => absurd rfl hne)
      (fun hne => absurd rfl hne)
  · rw [if_neg hstate] at hacc
    exact absurd (of_decide_eq_true hacc) hb.running

theorem exit_laid {i : ℕ} {p : Parser} {result : Bool} {event : HttpRequestEvent}
    (hb : InBounds raw length i p) (h : LaidOut raw p)
    (hstep : step mem raw length i p = .exit result event) :
    ResultLaid raw length (result, event) := by
  intro hacc
  obtain rfl : result = true := hacc
  obtain ⟨state, ts, sc, ev⟩ := p
  rcases state_of_accept hstep with hstate | hstate
  · obtain rfl : state = .body := hstate
    cases hstep
    have hts : ts ≤ length := hb.start.trans hb.le
    obtain ⟨hfrom, hto, _⟩ := bodyRange_spec mem raw hts
    refine body_laid h.laid hts (fun _ => Nat.add_le_add_left hfrom raw) fun _ => ?_
    rw [Nat.add_assoc]
    exact Nat.add_le_add_left hto raw
  · exact absurd hstate hb.running

theorem loop_laid (fuel : ℕ) {i : ℕ} {p : Parser} (hb : InBounds raw length i p)
    (h : LaidOut raw p) : ResultLaid raw length (loop mem raw length fuel i p) := by
  induction fuel generalizing i p with
  | zero => exact finish_laid hb h
  | succ fuel ih =>
    by_cases hi : i < length
    · simp only [loop, if_pos hi]
      cases hstep : step mem raw length i p with
      | exit result event => exact exit_laid hb h hstep
      | next i' p' => exact ih (step_inBounds hb hi hstep) (step_laidOut h hb.start hstep)
    · rw [loop_of_end (Nat.le_of_not_lt hi)]
      exact finish_laid hb h

theorem parse_laid {ev : HttpRequestEvent} (hfresh : ev.headerCount = 0) :
    ResultLaid raw length (parse mem raw length ev) :=
  loop_laid length (start_inBounds raw length ev) ⟨Nat.le_refl raw, fun _ => hfresh⟩

/-- Every access of a parse is in range, whatever the event held before; and the views of an
accepted request lie in the buffer one after the other. -/
theorem parse_accesses_and_layout (mem : ℕ → UInt8) (raw length : ℕ) (ev : HttpRequestEvent) :
    checkedParse mem raw length ev = some (parse mem raw length ev) ∧
      (ev.headerCount = 0 → (parse mem raw length ev).1 = true →
        (∀ v ∈ (parse mem raw length ev).2.views,
          raw ≤ v.ptr ∧ v.ptr + v.len ≤ raw + length) ∧
        (parse mem raw length ev).2.views.Pairwise fun u v => u.ptr + u.len ≤ v.ptr) := by
  refine ⟨checkedParse_eq mem raw length ev, fun hfresh hacc => ?_⟩
  have hlaid := parse_laid hfresh hacc
  exact ⟨fun v hv => hlaid.within hv, hlaid.pairwise⟩

/-- A request with one header and a body. -/
theorem parse_accesses_and_layout_one_header :
    ((parse (memoryOf (ascii "G / H\nA: b\n\nxy")) 0 14 (.unset 0)).2.views.Pairwise fun u v =>
      u.ptr + u.len ≤ v.ptr) ∧
      (parse (memoryOf (ascii "G / H\nA: b\n\nxy")) 0 14 (.unset 0)).2.views =
        [⟨0, 1⟩, ⟨2, 1⟩, ⟨6, 1⟩, ⟨9, 1⟩, ⟨12, 2⟩] := by
  have h := parse_accesses_and_layout (memoryOf (ascii "G / H\nA: b\n\nxy")) 0 14 (.unset 0)
  exact ⟨(h.2 rfl (by decide)).2, by decide⟩

end Run

end ConduitRuntime.Http
