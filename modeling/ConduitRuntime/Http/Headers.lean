import ConduitRuntime.Http.Grammar
import ConduitRuntime.Http.Run

/-! The header section: what the `HEADER_KEY` and `HEADER_VALUE` states do to one line, and what
they do to all of them up to the blank line. -/
namespace ConduitRuntime.Http
open Slices
set_option autoImplicit false

variable {mem : ℕ → UInt8} {raw length : ℕ}

/-! ## The fields recorded so far -/

theorem fields_length (ev : HttpRequestEvent) : (ev.fields mem).length = ev.headerCount := by
  simp [HttpRequestEvent.fields]

theorem fields_of_count {ev : HttpRequestEvent} (h : ev.headerCount = 0) : ev.fields mem = [] :=
  slice_of_le _ (Nat.le_of_eq h)

theorem fields_setValue (ev : HttpRequestEvent) (key value : View) :
    ((ev.setKey key).setValue value).fields mem =
      ev.fields mem ++ [(key.read mem, value.read mem)] := by
  have hsnoc := slice_snoc
    (fun j => (((ev.setKey key).setValue value).headers j).field mem) (Nat.zero_le ev.headerCount)
  refine hsnoc.trans (congrArg₂ _ (slice_congr _ ?_) ?_)
  · intro j _ hj
    simp [HttpRequestEvent.setKey, HttpRequestEvent.setValue,
      Function.update_of_ne (Nat.ne_of_lt hj)]
  · simp [HttpRequestEvent.setKey, HttpRequestEvent.setValue, HttpHeader.field]

theorem injection_eq_false_iff (ev : HttpRequestEvent) (key : View) (value : List UInt8) :
    injection mem ev key = false ↔
      ∀ prev ∈ (ev.fields mem).getLast?, NotInjected prev (key.read mem, value) := by
  by_cases hpos : 0 < ev.headerCount
  · rw [HttpRequestEvent.fields, slice_getLast? _ hpos]
    simp only [injection, hpos, decide_true, Bool.true_and, Bool.and_eq_false_iff,
      decide_eq_false_iff_not, Option.mem_def, Option.some.injEq, forall_eq', NotInjected,
      HttpHeader.field, not_and_or]
  · rw [fields_of_count (Nat.eq_zero_of_not_pos hpos)]
    simp [injection, hpos]

/-! ## The key -/

/-- The bytes the `HEADER_KEY` state acts on. -/
def keyStop (c : UInt8) : Bool := isBreak c || c = colon

/-- What the colon finds in order. -/
structure KeyOk (fs : List Field) (k : List UInt8) : Prop where
  count : fs.length < maxHeaders
  ne : k ≠ []
  not_injected : ∀ prev ∈ fs.getLast?, NotInjected prev (k, [])
  le : k.length ≤ 64
  bytes : k.any badKeyByte = false

theorem keyByte_iff (c : UInt8) :
    keyStop c = false ∧ badKeyByte c = false ↔ 0x21 ≤ c ∧ c ≤ 0x7e ∧ c ≠ colon := by
  simp only [keyStop, isBreak, badKeyByte, cr, lf, colon, sp, Bool.or_eq_false_iff,
    decide_eq_false_iff_not, ← UInt8.toNat_inj, UInt8.le_iff_toNat_le, UInt8.toNat_ofNat, ne_eq]
  omega

variable {i : ℕ} {sc : Bool} {ev : HttpRequestEvent} {k w x y : List UInt8}

theorem skip_key {j : ℕ} (h : keyStop (byte mem raw j) = false) :
    step mem raw length j ⟨.headerKey, i, sc, ev⟩ = .next (j + 1) ⟨.headerKey, i, sc, ev⟩ := by
  obtain ⟨hbreak, hcolon⟩ := Bool.or_eq_false_iff.mp h
  simp only [step, stepHeaderKey, hbreak, Bool.false_eq_true, if_false,
    if_neg (of_decide_eq_false hcolon)]

theorem stepHeaderKey_colon (hi : i ≤ length) (h : rest mem raw length i = k ++ colon :: y) :
    step mem raw length (i + k.length) ⟨.headerKey, i, sc, ev⟩ =
      if maxHeaders ≤ ev.headerCount then .exit false ev
      else if k = [] then .exit false ev
      else if injection mem ev (viewOf raw i (i + k.length)) then .exit false ev
      else if 64 < k.length then .exit false ev
      else if k.any badKeyByte then .exit false ev
      else .next (i + k.length + 1)
        ⟨.headerValue, i + k.length + 1, true, ev.setKey (viewOf raw i (i + k.length))⟩ := by
  obtain ⟨_, hslice, hcolon, _⟩ := rest_eq_append hi h
  have hbreak : isBreak colon = false := rfl
  have hempty : i + k.length = i ↔ k = [] := by
    rw [← List.length_eq_zero_iff]
    omega
  simp only [step, stepHeaderKey, hcolon, hbreak, Bool.false_eq_true, if_false, if_true, hempty,
    Nat.add_sub_cancel_left, hslice]

theorem viewOf_read_rest (hi : i ≤ length) {c : UInt8} (h : rest mem raw length i = x ++ c :: y) :
    (viewOf raw i (i + x.length)).read mem = x := by
  obtain ⟨_, hslice, _, _⟩ := rest_eq_append hi h
  rw [viewOf_read (Nat.le_add_right i x.length), hslice]

theorem go_key (hi : i ≤ length) (h : rest mem raw length i = k ++ colon :: y)
    (hk : ∀ c ∈ k, keyStop c = false) (hok : KeyOk (ev.fields mem) k) :
    go mem raw length i ⟨.headerKey, i, sc, ev⟩ =
      go mem raw length (i + k.length + 1)
        ⟨.headerValue, i + k.length + 1, true, ev.setKey (viewOf raw i (i + k.length))⟩ := by
  obtain ⟨hlt, _, _, _⟩ := rest_eq_append hi h
  have hcount := hok.count
  rw [fields_length] at hcount
  have hinj : injection mem ev (viewOf raw i (i + k.length)) = false := by
    rw [injection_eq_false_iff ev _ [], viewOf_read_rest hi h]
    exact hok.not_injected
  rw [go_to keyStop (fun _ => skip_key) hi h hk]
  refine go_next hlt ((stepHeaderKey_colon hi h).trans ?_)
  rw [if_neg (Nat.not_le.mpr hcount), if_neg hok.ne, hinj, if_neg Bool.false_ne_true,
    if_neg (Nat.not_lt.mpr hok.le), hok.bytes, if_neg Bool.false_ne_true]

/-- An accepted header section begins with the blank line or with a key in order. -/
theorem key_of_accept (hi : i ≤ length)
    (h : (go mem raw length i ⟨.headerKey, i, false, ev⟩).1 = true) :
    (∃ e b, rest mem raw length i = e :: b ∧ isBreak e = true) ∨
      ∃ k y, rest mem raw length i = k ++ colon :: y ∧ (∀ c ∈ k, keyStop c = false) ∧
        KeyOk (ev.fields mem) k := by
  obtain ⟨k, c, y, hrest, hc, hk, hgo⟩ := split_of_accept keyStop (fun _ => skip_key) rfl hi h
  obtain ⟨hlt, _, hbyte, _⟩ := rest_eq_append hi hrest
  by_cases hbreak : isBreak c = true
  · by_cases hne : k = []
    · subst hne
      exact .inl ⟨c, y, hrest, hbreak⟩
    · refine absurd hgo (not_accept_of_exit hlt ?_)
      simp [step, stepHeaderKey, hbyte, hbreak, hne]
  · obtain rfl : c = colon := by simpa [keyStop, hbreak] using hc
    refine .inr ⟨k, y, hrest, hk, ?_⟩
    have hstep : step mem raw length (i + k.length) ⟨.headerKey, i, false, ev⟩ ≠ .exit false ev :=
      fun e => not_accept_of_exit hlt e hgo
    rw [stepHeaderKey_colon hi hrest] at hstep
    simp only [ite_eq_left_iff, ne_eq, Classical.not_imp, Nat.not_le, Nat.not_lt,
      Bool.not_eq_true] at hstep
    obtain ⟨hcount, hne, hinj, hle, hbytes, _⟩ := hstep
    rw [injection_eq_false_iff ev _ [], viewOf_read_rest hi hrest] at hinj
    exact ⟨by rwa [fields_length], hne, hinj, hle, hbytes⟩

/-! ## The value -/

theorem valueRange_spec (mem : ℕ → UInt8) (raw : ℕ) {a b : ℕ} (hab : a ≤ b) :
    a ≤ (valueRange mem raw a b).1 ∧
      (valueRange mem raw a b).1 ≤ (valueRange mem raw a b).2 ∧
      (valueRange mem raw a b).2 ≤ b ∧
      slice (byte mem raw) (valueRange mem raw a b).1 (valueRange mem raw a b).2 =
        valueOf (slice (byte mem raw) a b) := by
  have hcr := slice_dropTrailing (byte mem raw) cr a b
  unfold valueRange
  dsimp only
  generalize hend : (if a < b ∧ byte mem raw (b - 1) = cr then b - 1 else b) = e at hcr ⊢
  have hae : a ≤ e ∧ e ≤ b := by
    rw [← hend]
    split <;> omega
  obtain ⟨h₁, h₂, hskip⟩ := skipWhile_spec (byte mem raw) isPad hae.1 (Nat.le_refl (e - a))
  obtain ⟨h₃, h₄, hback⟩ := backWhile_spec (byte mem raw) isPad h₂ (Nat.le_refl _)
  refine ⟨h₁, h₃, h₄.trans hae.2, ?_⟩
  rw [hback, hskip, hcr]
  rfl

/-- The view the parser stores for the value bytes from `a` to `b`. -/
def valueView (mem : ℕ → UInt8) (raw a b : ℕ) : View :=
  viewOf raw (valueRange mem raw a b).1 (valueRange mem raw a b).2

theorem valueView_read {a b : ℕ} (hab : a ≤ b) :
    (valueView mem raw a b).read mem = valueOf (slice (byte mem raw) a b) := by
  obtain ⟨_, hle, _, hvalue⟩ := valueRange_spec mem raw hab
  rw [valueView, viewOf_read hle, hvalue]

theorem skip_value {j : ℕ} (h : decide (byte mem raw j = lf) = false) :
    step mem raw length j ⟨.headerValue, i, sc, ev⟩ = .next (j + 1) ⟨.headerValue, i, sc, ev⟩ :=
  if_neg (of_decide_eq_false h)

theorem lf_notMem_valueOf (h : lf ∉ w) : lf ∉ valueOf w := by
  intro hmem
  have hmem := (List.rdropWhile_prefix isPad _).subset hmem
  have hmem := (List.dropWhile_sublist isPad).subset hmem
  unfold dropTrailing at hmem
  split at hmem
  · exact h (List.dropLast_subset _ hmem)
  · exact h hmem

theorem any_isBreak_valueOf (h : lf ∉ w) : (valueOf w).any isBreak = false ↔ cr ∉ valueOf w := by
  have hlf := lf_notMem_valueOf h
  rw [← Bool.not_eq_true, List.any_eq_true, not_iff_not]
  constructor
  · rintro ⟨c, hc, hbreak⟩
    have hcase : c = cr ∨ c = lf := by simpa [isBreak] using hbreak
    rcases hcase with rfl | rfl
    · exact hc
    · exact absurd hc hlf
  · intro hcr
    exact ⟨cr, hcr, rfl⟩

theorem stepHeaderValue_lf (hi : i ≤ length) (h : rest mem raw length i = w ++ lf :: y) :
    step mem raw length (i + w.length) ⟨.headerValue, i, sc, ev⟩ =
      if (valueOf w).any isBreak then .exit false ev
      else if ieq ((ev.headers ev.headerCount).key.read mem) (ascii "Transfer-Encoding") &&
          icontains (valueOf w) (ascii "chunked") then .exit false ev
      else .next (i + w.length + 1) ⟨.headerKey, i + w.length + 1, false,
        ev.setValue (valueView mem raw i (i + w.length))⟩ := by
  obtain ⟨_, hslice, hlf, _⟩ := rest_eq_append hi h
  obtain ⟨_, hle, _, hvalue⟩ :=
    valueRange_spec mem raw (Nat.le_add_right i w.length)
  rw [hslice] at hvalue
  simp only [step, stepHeaderValue, hlf, if_true, hvalue, viewOf_read hle]
  rfl

theorem chunked_iff (k v : List UInt8) :
    (ieq k (ascii "Transfer-Encoding") && icontains v (ascii "chunked")) = true ↔
      Chunked (k, v) := by
  rw [Bool.and_eq_true, ieq_iff, icontains_iff v (by decide)]
  rfl

theorem go_value (hi : i ≤ length) (h : rest mem raw length i = w ++ lf :: y) (hlf : lf ∉ w)
    (hcr : cr ∉ valueOf w)
    (hchunked : ¬ Chunked ((ev.headers ev.headerCount).key.read mem, valueOf w)) :
    go mem raw length i ⟨.headerValue, i, sc, ev⟩ =
      go mem raw length (i + w.length + 1) ⟨.headerKey, i + w.length + 1, false,
        ev.setValue (valueView mem raw i (i + w.length))⟩ := by
  obtain ⟨hlt, _, _, _⟩ := rest_eq_append hi h
  rw [go_to (fun b => decide (b = lf)) (fun _ => skip_value) hi h
    (forall_ne_iff.mpr hlf)]
  refine go_next hlt ((stepHeaderValue_lf hi h).trans ?_)
  rw [(any_isBreak_valueOf hlf).mpr hcr, if_neg Bool.false_ne_true,
    if_neg (mt (chunked_iff _ _).mp hchunked)]

theorem value_of_accept (hi : i ≤ length)
    (h : (go mem raw length i ⟨.headerValue, i, sc, ev⟩).1 = true) :
    ∃ w y, rest mem raw length i = w ++ lf :: y ∧ lf ∉ w ∧ cr ∉ valueOf w ∧
      ¬ Chunked ((ev.headers ev.headerCount).key.read mem, valueOf w) := by
  obtain ⟨w, c, y, hrest, hc, hw, hgo⟩ :=
    split_of_accept (fun b => decide (b = lf)) (fun _ => skip_value) rfl hi h
  obtain rfl : c = lf := of_decide_eq_true hc
  have hlf : lf ∉ w := forall_ne_iff.mp hw
  obtain ⟨hlt, _, _, _⟩ := rest_eq_append hi hrest
  have hstep : step mem raw length (i + w.length) ⟨.headerValue, i, sc, ev⟩ ≠ .exit false ev :=
    fun e => not_accept_of_exit hlt e hgo
  rw [stepHeaderValue_lf hi hrest] at hstep
  simp only [ite_eq_left_iff, ne_eq, Classical.not_imp, Bool.not_eq_true] at hstep
  obtain ⟨hbreak, hchunked, _⟩ := hstep
  refine ⟨w, y, hrest, hlf, (any_isBreak_valueOf hlf).mp hbreak, fun hch => ?_⟩
  rw [(chunked_iff _ _).mpr hch] at hchunked
  cases hchunked

/-! ## Lines -/

/-- The event after the line with key bytes `k` and value bytes `w` that starts at `i`. -/
def addLine (mem : ℕ → UInt8) (raw i : ℕ) (ev : HttpRequestEvent) (k w : List UInt8) :
    HttpRequestEvent :=
  (ev.setKey (viewOf raw i (i + k.length))).setValue
    (valueView mem raw (i + k.length + 1) (i + k.length + 1 + w.length))

theorem setKey_key_read (hi : i ≤ length) (h : rest mem raw length i = k ++ colon :: y) :
    ((ev.setKey (viewOf raw i (i + k.length))).headers
      (ev.setKey (viewOf raw i (i + k.length))).headerCount).key.read mem = k := by
  simp only [HttpRequestEvent.setKey, Function.update_self]
  exact viewOf_read_rest hi h

theorem HeaderLine.bytes_append (h : HeaderLine) (y : List UInt8) :
    h.bytes ++ y = h.key ++ colon :: (h.rest ++ lf :: y) := by
  simp [HeaderLine.bytes]

theorem fields_addLine (h : HeaderLine) (hi : i ≤ length)
    (hrest : rest mem raw length i = h.bytes ++ y) :
    (addLine mem raw i ev h.key h.rest).fields mem = ev.fields mem ++ [h.field] := by
  rw [h.bytes_append] at hrest
  obtain ⟨hlt, _, _, hrest'⟩ := rest_eq_append hi hrest
  obtain ⟨_, hw, _, _⟩ := rest_eq_append (Nat.succ_le_of_lt hlt) hrest'
  rw [addLine, fields_setValue, viewOf_read_rest hi hrest,
    valueView_read (Nat.le_add_right _ _), hw, HeaderLine.field]

theorem HeaderLine.bytes_length (h : HeaderLine) :
    h.bytes.length = h.key.length + 1 + h.rest.length + 1 := by
  simp only [HeaderLine.bytes, List.length_append, List.length_cons, List.length_nil]
  omega

theorem HeaderLine.key_stop (h : HeaderLine) : ∀ c ∈ h.key, keyStop c = false := fun c hc =>
  ((keyByte_iff c).mpr (h.key_bytes c hc)).1

theorem HeaderLine.keyOk (h : HeaderLine) {fs : List Field} (hfs : Allowed fs)
    (hadd : Allowed (fs ++ [h.field])) : KeyOk fs h.key := by
  obtain ⟨hcount, hlast⟩ := (allowed_snoc hfs).mp hadd
  refine ⟨hcount, List.ne_nil_of_length_pos h.key_pos, hlast, h.key_le, ?_⟩
  rw [List.any_eq_false]
  intro c hc
  rw [((keyByte_iff c).mpr (h.key_bytes c hc)).2]
  exact Bool.false_ne_true

theorem go_line (h : HeaderLine) (hi : i ≤ length) (hrest : rest mem raw length i = h.bytes ++ y)
    (hfs : Allowed (ev.fields mem)) (hadd : Allowed (ev.fields mem ++ [h.field])) :
    go mem raw length i ⟨.headerKey, i, false, ev⟩ =
      go mem raw length (i + h.bytes.length)
        ⟨.headerKey, i + h.bytes.length, false, addLine mem raw i ev h.key h.rest⟩ := by
  rw [h.bytes_append] at hrest
  obtain ⟨hlt, _, _, hrest'⟩ := rest_eq_append hi hrest
  have hnext : i + h.bytes.length = i + h.key.length + 1 + h.rest.length + 1 := by
    rw [h.bytes_length]
    omega
  have hchunked : ¬ Chunked (((ev.setKey (viewOf raw i (i + h.key.length))).headers
      (ev.setKey (viewOf raw i (i + h.key.length))).headerCount).key.read mem,
      valueOf h.rest) := by
    rw [setKey_key_read hi hrest]
    exact h.not_chunked
  rw [go_key hi hrest h.key_stop (h.keyOk hfs hadd), hnext,
    go_value (Nat.succ_le_of_lt hlt) hrest' h.rest_lf h.value_cr hchunked, addLine]

/-- An accepted header section begins with the blank line or with a line of the grammar. -/
theorem line_of_accept (hi : i ≤ length) (hfs : Allowed (ev.fields mem))
    (h : (go mem raw length i ⟨.headerKey, i, false, ev⟩).1 = true) :
    (∃ e b, rest mem raw length i = e :: b ∧ isBreak e = true) ∨
      ∃ (l : HeaderLine) (y : List UInt8), rest mem raw length i = l.bytes ++ y ∧
        Allowed (ev.fields mem ++ [l.field]) := by
  rcases key_of_accept hi h with hblank | ⟨k, y, hrest, hk, hok⟩
  · exact .inl hblank
  obtain ⟨hlt, _, _, hy⟩ := rest_eq_append hi hrest
  rw [go_key hi hrest hk hok] at h
  obtain ⟨w, y', hrest', hlf, hcr, hchunked⟩ := value_of_accept (Nat.succ_le_of_lt hlt) h
  rw [setKey_key_read hi hrest] at hchunked
  have hbytes : ∀ c ∈ k, 0x21 ≤ c ∧ c ≤ 0x7e ∧ c ≠ colon := fun c hc =>
    (keyByte_iff c).mp ⟨hk c hc, Bool.eq_false_iff.mpr (List.any_eq_false.mp hok.bytes c hc)⟩
  let l : HeaderLine := ⟨k, w, List.length_pos_iff.mpr hok.ne, hok.le, hbytes, hlf, hcr, hchunked⟩
  refine .inr ⟨l, y', ?_, (allowed_snoc hfs).mpr ⟨hok.count, hok.not_injected⟩⟩
  rw [l.bytes_append, hrest, ← hy, hrest']

/-! ## All lines up to the blank one -/

def addLines (mem : ℕ → UInt8) (raw : ℕ) :
    ℕ → HttpRequestEvent → List HeaderLine → HttpRequestEvent
  | _, ev, [] => ev
  | i, ev, l :: ls => addLines mem raw (i + l.bytes.length) (addLine mem raw i ev l.key l.rest) ls

theorem append_fields_cons (fs : List Field) (l : HeaderLine) (ls : List HeaderLine) :
    fs ++ (l :: ls).map HeaderLine.field = fs ++ [l.field] ++ ls.map HeaderLine.field := by
  simp

/-- A header section leaves the request line alone and appends its fields. -/
structure Extends (mem : ℕ → UInt8) (ev ev' : HttpRequestEvent) (fs : List Field) : Prop where
  method : ev'.method = ev.method
  uri : ev'.uri = ev.uri
  fields : ev'.fields mem = ev.fields mem ++ fs

theorem go_lines (ls : List HeaderLine) (hi : i ≤ length)
    (hrest : rest mem raw length i = ls.flatMap HeaderLine.bytes ++ y)
    (hfs : Allowed (ev.fields mem)) (hadd : Allowed (ev.fields mem ++ ls.map HeaderLine.field)) :
    ∃ j, j ≤ length ∧ rest mem raw length j = y ∧
      Extends mem ev (addLines mem raw i ev ls) (ls.map HeaderLine.field) ∧
      go mem raw length i ⟨.headerKey, i, false, ev⟩ =
        go mem raw length j ⟨.headerKey, j, false, addLines mem raw i ev ls⟩ := by
  induction ls generalizing i ev with
  | nil => exact ⟨i, hi, hrest, ⟨rfl, rfl, (List.append_nil _).symm⟩, rfl⟩
  | cons l ls ih =>
    rw [List.flatMap_cons, List.append_assoc] at hrest
    rw [append_fields_cons] at hadd
    obtain ⟨hi', _, hrest'⟩ := slice_eq_append _ hi hrest
    have hline := go_line l hi hrest hfs hadd.left
    rw [← fields_addLine l hi hrest] at hadd
    obtain ⟨j, hj, hy, hext, hgo⟩ := ih hi' hrest' hadd.left hadd
    refine ⟨j, hj, hy, ⟨hext.method, hext.uri, ?_⟩, hline.trans hgo⟩
    rw [append_fields_cons, ← fields_addLine l hi hrest]
    exact hext.fields

/-- An accepted header section is a sequence of lines of the grammar and a blank line. -/
theorem lines_of_accept (hi : i ≤ length) (hfs : Allowed (ev.fields mem))
    (h : (go mem raw length i ⟨.headerKey, i, false, ev⟩).1 = true) :
    ∃ (ls : List HeaderLine) (e : UInt8) (b : List UInt8),
      rest mem raw length i = ls.flatMap HeaderLine.bytes ++ e :: b ∧ isBreak e = true ∧
      Allowed (ev.fields mem ++ ls.map HeaderLine.field) := by
  induction hn : length - i using Nat.strong_induction_on generalizing i ev with
  | _ n ih =>
    rcases line_of_accept hi hfs h with ⟨e, b, hrest, he⟩ | ⟨l, y, hrest, hadd⟩
    · exact ⟨[], e, b, hrest, he, by rwa [List.map_nil, List.append_nil]⟩
    obtain ⟨hi', _, hy⟩ := slice_eq_append _ hi hrest
    have hlen := l.bytes_length
    rw [go_line l hi hrest hfs hadd] at h
    rw [← fields_addLine l hi hrest] at hadd
    obtain ⟨ls, e, b, htail, he, hall⟩ := ih _ (by omega) hi' hadd h rfl
    refine ⟨l :: ls, e, b, ?_, he, ?_⟩
    · rw [hrest, ← hy, List.flatMap_cons, List.append_assoc]
      exact congrArg _ htail
    · rw [append_fields_cons, ← fields_addLine l hi hrest]
      exact hall

end ConduitRuntime.Http
