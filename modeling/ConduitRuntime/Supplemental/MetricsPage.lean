import ConduitRuntime.Supplemental.Logger

/-! The page of `prometheus_exporter` and the HTTP response around it, with what a reader of the
text format and a client that goes by `Content-Length` make of them. -/
namespace ConduitRuntime.Supplemental
set_option autoImplicit false

/-! ## What the exporter writes -/

def helpOpen : List Char := "# HELP ".toList

def helpText : List Char := " CONDUIT processed events.".toList

def typeOpen : List Char := "# TYPE ".toList

def typeText : List Char := " counter".toList

def endLine (line : List Char) : List Char := line ++ ['\n']

/-- What goes into the payload for one counter; the last line is empty. -/
def metricText (name : List Char) (value : BitVec 64) : List Char :=
  endLine (helpOpen ++ name ++ helpText) ++
  endLine (typeOpen ++ name ++ typeText) ++
  endLine (name ++ ' ' :: stdToString value) ++
  endLine []

def payload (samples : List (List Char × BitVec 64)) : List Char :=
  samples.flatMap fun s => metricText s.1 s.2

def statusLine : List Char := "HTTP/1.1 200 OK".toList

def contentType : List Char := "Content-Type: text/plain; version=0.0.4".toList

def lengthOpen : List Char := "Content-Length: ".toList

def connectionClose : List Char := "Connection: close".toList

def crlf (line : List Char) : List Char := line ++ ['\r', '\n']

def httpResponse (body : List Char) : List Char :=
  crlf statusLine ++ (crlf contentType ++ (crlf (lengthOpen ++ Nat.toDigits 10 body.length) ++
    (crlf connectionClose ++ (crlf [] ++ body))))

/-! ## What a client reads -/

/-- A line of the text format: comments and empty lines give nothing. -/
def readSample (line : List Char) : Option (List Char × ℕ) :=
  if line = [] ∨ line.head? = some '#' then none
  else
    match line.splitOn ' ' with
    | [name, value] => some (name, Nat.ofDigitChars 10 value 0)
    | _ => none

def readPage (page : List Char) : List (List Char × ℕ) := (page.splitOn '\n').filterMap readSample

/-- The end of an HTTP header. -/
def blankLine : List Char := ['\r', '\n', '\r', '\n']

/-- The header before the first blank line, and what follows it. -/
def splitHeader : List Char → Option (List Char × List Char)
  | [] => none
  | c :: s =>
    if blankLine <+: c :: s then some ([], (c :: s).drop 4)
    else (splitHeader s).map fun r => (c :: r.1, r.2)

def contentLength (header : List Char) : Option ℕ :=
  (header.splitOn '\n').findSome? fun line =>
    (line.dropPrefix? lengthOpen).map fun value =>
      Nat.ofDigitChars 10 (value.takeWhile Char.isDigit) 0

/-- The body, once as much as announced is there. -/
def readResponse (s : List Char) : Option (List Char) :=
  (splitHeader s).bind fun r => (contentLength r.1).bind fun n =>
    if n ≤ r.2.length then some (r.2.take n) else none

/-! ## The page -/

/-- A name that the text format allows: a word that is no comment. -/
structure MetricName (name : List Char) : Prop where
  ne_nil : name ≠ []
  head : name.head? ≠ some '#'
  newline : '\n' ∉ name
  blank : ' ' ∉ name

theorem beq_of_notMem {ch : Char} {l : List Char} (h : ch ∉ l) : ∀ x ∈ l, (x == ch) = false := by
  intro x hx
  rw [beq_eq_false_iff_ne]
  rintro rfl
  exact h hx

theorem notMem_toDigits {ch : Char} (hch : ch.isDigit = false) (n : ℕ) :
    ch ∉ Nat.toDigits 10 n := by
  intro hmem
  have := Nat.isDigit_of_mem_toDigits (by decide) (by decide) hmem
  rw [hch] at this
  cases this

theorem notMem_append {ch : Char} {s t : List Char} (hs : ch ∉ s) (ht : ch ∉ t) : ch ∉ s ++ t := by
  rw [List.mem_append, not_or]
  exact ⟨hs, ht⟩

/-- A line splits off at its end. -/
theorem splitOn_endLine {line : List Char} (h : '\n' ∉ line) (rest : List Char) :
    (endLine line ++ rest).splitOn '\n' = line :: rest.splitOn '\n' := by
  rw [endLine, List.append_assoc]
  exact List.splitOnP_append_cons_of_forall_mem (beq_of_notMem h) _ (by decide) rest

theorem readSample_empty : readSample [] = none := by simp [readSample]

theorem readSample_comment {line : List Char} (h : line.head? = some '#') :
    readSample line = none := by
  simp [readSample, h]

theorem readSample_line {name : List Char} (h : MetricName name) (value : BitVec 64) :
    readSample (name ++ ' ' :: stdToString value) = some (name, value.toNat) := by
  have hdigits : ' ' ∉ stdToString value := notMem_toDigits (by decide) _
  have hsplit : (name ++ ' ' :: stdToString value).splitOn ' ' = [name, stdToString value] := by
    unfold List.splitOn
    rw [List.splitOnP_append_cons_of_forall_mem (beq_of_notMem h.blank) _ (by decide),
      List.splitOnP_eq_singleton (beq_of_notMem hdigits)]
  have hhead : ¬ (name ++ ' ' :: stdToString value = [] ∨
      (name ++ ' ' :: stdToString value).head? = some '#') := by
    rintro (hnil | hhash)
    · simp at hnil
    · apply h.head
      rwa [List.head?_append_of_ne_nil _ h.ne_nil] at hhash
  rw [readSample, if_neg hhead, hsplit]
  simp only [stdToString, Nat.ofDigitChars_ten_toDigits]

theorem readPage_metricText {name : List Char} (h : MetricName name) (value : BitVec 64)
    (rest : List Char) :
    readPage (metricText name value ++ rest) = (name, value.toNat) :: readPage rest := by
  have hhelp : '\n' ∉ helpOpen ++ name ++ helpText :=
    notMem_append (notMem_append (by decide) h.newline) (by decide)
  have htype : '\n' ∉ typeOpen ++ name ++ typeText :=
    notMem_append (notMem_append (by decide) h.newline) (by decide)
  have hsample : '\n' ∉ name ++ ' ' :: stdToString value := by
    refine notMem_append h.newline ?_
    rw [List.mem_cons, not_or]
    exact ⟨by decide, notMem_toDigits (by decide) _⟩
  have hcomment : (helpOpen ++ name ++ helpText).head? = some '#' := by
    rw [List.append_assoc, List.head?_append_of_ne_nil _ (by decide)]
    decide
  have hcomment' : (typeOpen ++ name ++ typeText).head? = some '#' := by
    rw [List.append_assoc, List.head?_append_of_ne_nil _ (by decide)]
    decide
  rw [metricText, List.append_assoc, List.append_assoc, List.append_assoc, readPage,
    splitOn_endLine hhelp, splitOn_endLine htype, splitOn_endLine hsample,
    splitOn_endLine List.not_mem_nil, List.filterMap_cons_none (readSample_comment hcomment),
    List.filterMap_cons_none (readSample_comment hcomment'),
    List.filterMap_cons_some (readSample_line h value), List.filterMap_cons_none readSample_empty]
  rfl

/-- The reader gets back the names and the values. -/
theorem readPage_payload {samples : List (List Char × BitVec 64)}
    (h : ∀ s ∈ samples, MetricName s.1) :
    readPage (payload samples) = samples.map fun s => (s.1, s.2.toNat) := by
  induction samples with
  | nil => simp [readPage, payload, List.splitOn, readSample_empty]
  | cons s samples ih =>
    rw [payload, List.flatMap_cons, List.map_cons, ← ih fun u hu => h u (List.mem_cons_of_mem s hu)]
    exact readPage_metricText (h s List.mem_cons_self) s.2 (payload samples)

/-! ## The response -/

theorem splitHeader_text {t : List Char} (ht : '\r' ∉ t) (s : List Char) :
    splitHeader (t ++ s) = (splitHeader s).map fun r => (t ++ r.1, r.2) := by
  induction t with
  | nil => simp
  | cons c t ih =>
    have hc : ¬ blankLine <+: c :: (t ++ s) := by
      intro hpre
      have hcr : '\r' = c := by simpa [blankLine] using (List.cons_prefix_cons.mp hpre).1
      exact ht (hcr ▸ List.mem_cons_self)
    rw [List.cons_append, splitHeader, if_neg hc, ih fun hmem => ht (List.mem_cons_of_mem c hmem),
      Option.map_map]
    rfl

/-- A line of the header that another one follows. -/
theorem splitHeader_crlf {t : List Char} (ht : '\r' ∉ t) {s : List Char}
    (hs : s.head? ≠ some '\r') :
    splitHeader (crlf t ++ s) = (splitHeader s).map fun r => (crlf t ++ r.1, r.2) := by
  have h1 : ¬ blankLine <+: '\r' :: '\n' :: s := by
    intro hpre
    obtain ⟨u, hu⟩ := hpre
    cases hu
    exact hs rfl
  have h2 : ¬ blankLine <+: '\n' :: s := by
    intro hpre
    obtain ⟨u, hu⟩ := hpre
    cases hu
  rw [crlf, List.append_assoc, splitHeader_text ht, List.cons_append, List.cons_append,
    List.nil_append, splitHeader, if_neg h1, splitHeader, if_neg h2, Option.map_map, Option.map_map]
  congr 1
  funext r
  simp

theorem splitHeader_last {t : List Char} (ht : '\r' ∉ t) (body : List Char) :
    splitHeader (crlf t ++ (crlf [] ++ body)) = some (t, body) := by
  rw [crlf, List.append_assoc, splitHeader_text ht]
  simp [splitHeader, crlf, blankLine]

def responseHeader (n : ℕ) : List Char :=
  crlf statusLine ++ (crlf contentType ++ (crlf (lengthOpen ++ Nat.toDigits 10 n) ++
    connectionClose))

theorem head?_crlf {t : List Char} (ht : t ≠ []) (hr : '\r' ∉ t) (s : List Char) :
    (crlf t ++ s).head? ≠ some '\r' := by
  rw [crlf, List.append_assoc, List.head?_append_of_ne_nil _ ht]
  intro hhead
  exact hr (List.mem_of_mem_head? hhead)

theorem splitHeader_httpResponse (body : List Char) :
    splitHeader (httpResponse body) = some (responseHeader body.length, body) := by
  have hlength : '\r' ∉ lengthOpen ++ Nat.toDigits 10 body.length :=
    notMem_append (by decide) (notMem_toDigits (by decide) _)
  have hne : lengthOpen ++ Nat.toDigits 10 body.length ≠ [] :=
    List.append_ne_nil_of_right_ne_nil _ Nat.toDigits_ne_nil
  rw [httpResponse, splitHeader_crlf (by decide) (head?_crlf (by decide) (by decide) _),
    splitHeader_crlf (by decide) (head?_crlf hne hlength _),
    splitHeader_crlf hlength (head?_crlf (by decide) (by decide) _), splitHeader_last (by decide)]
  rfl

theorem splitOn_crlf {line : List Char} (h : '\n' ∉ line) (rest : List Char) :
    (crlf line ++ rest).splitOn '\n' = (line ++ ['\r']) :: rest.splitOn '\n' := by
  have hline : crlf line = endLine (line ++ ['\r']) := by simp [crlf, endLine]
  rw [hline, splitOn_endLine (notMem_append h (by decide))]

theorem takeWhile_toDigits (n : ℕ) :
    (Nat.toDigits 10 n ++ ['\r']).takeWhile Char.isDigit = Nat.toDigits 10 n := by
  rw [List.takeWhile_append_of_pos fun ch hch =>
    Nat.isDigit_of_mem_toDigits (by decide) (by decide) hch]
  simp

theorem contentLength_responseHeader (n : ℕ) : contentLength (responseHeader n) = some n := by
  have hlength : '\n' ∉ lengthOpen ++ Nat.toDigits 10 n :=
    notMem_append (by decide) (notMem_toDigits (by decide) _)
  have hlast : connectionClose.splitOn '\n' = [connectionClose] :=
    List.splitOnP_eq_singleton (beq_of_notMem (by decide))
  have hstatus : (statusLine ++ ['\r']).dropPrefix? lengthOpen = none := by decide
  have htype : (contentType ++ ['\r']).dropPrefix? lengthOpen = none := by decide
  have hvalue : (lengthOpen ++ Nat.toDigits 10 n ++ ['\r']).dropPrefix? lengthOpen =
      some (Nat.toDigits 10 n ++ ['\r']) := by
    rw [List.append_assoc]
    exact List.dropPrefix?_append_of_beq _ (beq_self_eq_true _)
  rw [contentLength, responseHeader, splitOn_crlf (by decide), splitOn_crlf (by decide),
    splitOn_crlf hlength, hlast]
  simp only [List.findSome?_cons, hstatus, htype, hvalue, Option.map_none, Option.map_some,
    takeWhile_toDigits, Nat.ofDigitChars_ten_toDigits]

theorem splitHeader_short {s : List Char} (hs : s.length < 4) : splitHeader s = none := by
  induction s with
  | nil => rfl
  | cons c s ih =>
    have hc : ¬ blankLine <+: c :: s := by
      intro hpre
      have := hpre.length_le
      simp only [blankLine, List.length_cons, List.length_nil] at this hs
      omega
    rw [splitHeader, if_neg hc, ih (by rw [List.length_cons] at hs; omega)]
    rfl

/-- A response cut off inside its header has no header, and one cut off later has less behind it. -/
theorem splitHeader_take {s h rest : List Char} (hs : splitHeader s = some (h, rest)) (k : ℕ) :
    splitHeader (s.take k) =
      if h.length + 4 ≤ k then some (h, rest.take (k - (h.length + 4))) else none := by
  induction s generalizing h k with
  | nil => cases hs
  | cons c s ih =>
    rw [splitHeader] at hs
    by_cases hblank : blankLine <+: c :: s
    · rw [if_pos hblank] at hs
      cases hs
      by_cases hk : 4 ≤ k
      · obtain ⟨k, rfl⟩ : ∃ j, k = j + 1 := ⟨k - 1, by omega⟩
        have hpre : blankLine <+: c :: s.take k := by
          rw [← List.take_succ_cons]
          exact List.prefix_take_iff.mpr ⟨hblank, hk⟩
        rw [List.take_succ_cons, splitHeader, if_pos hpre, if_pos (by simpa using hk),
          ← List.take_succ_cons, List.drop_take]
        rfl
      · rw [if_neg (by simpa using hk), splitHeader_short]
        rw [List.length_take]
        omega
    · rw [if_neg hblank] at hs
      obtain ⟨⟨h', rest'⟩, hs', he⟩ := Option.map_eq_some_iff.mp hs
      cases he
      cases k with
      | zero => simp [splitHeader]
      | succ k =>
        have hpre : ¬ blankLine <+: c :: s.take k := by
          rw [← List.take_succ_cons]
          exact fun hpre => hblank (List.prefix_take_iff.mp hpre).1
        rw [List.take_succ_cons, splitHeader, if_neg hpre, ih hs' k]
        by_cases hk : h'.length + 4 ≤ k
        · have harith : k + 1 - ((c :: h').length + 4) = k - (h'.length + 4) := by
            rw [List.length_cons]
            omega
          have hk' : (c :: h').length + 4 ≤ k + 1 := by
            rw [List.length_cons]
            omega
          rw [if_pos hk, if_pos hk', harith]
          rfl
        · have hk' : ¬ (c :: h').length + 4 ≤ k + 1 := by
            rw [List.length_cons]
            omega
          rw [if_neg hk, if_neg hk']
          rfl

/-- A client gets the body from a complete response, and nothing from one that is cut off. -/
theorem readResponse_take (body : List Char) (k : ℕ) :
    readResponse ((httpResponse body).take k) =
      if (httpResponse body).length ≤ k then some body else none := by
  have hlen : (httpResponse body).length =
      (responseHeader body.length).length + 4 + body.length := by
    simp only [httpResponse, responseHeader, crlf, List.length_append, List.length_cons,
      List.length_nil]
    omega
  rw [readResponse, splitHeader_take (splitHeader_httpResponse body) k]
  by_cases hk : (responseHeader body.length).length + 4 ≤ k
  · simp only [if_pos hk, Option.bind_some, contentLength_responseHeader]
    by_cases hfull : (httpResponse body).length ≤ k
    · rw [if_pos hfull, List.take_of_length_le (by omega), if_pos (Nat.le_refl _), List.take_length]
    · rw [if_neg hfull, if_neg]
      rw [List.length_take]
      omega
  · rw [if_neg hk, if_neg (by omega)]
    rfl

end ConduitRuntime.Supplemental
