import ConduitRuntime.Routing.RoundRobin
import Mathlib.Data.List.Rotate

/-! The walk of a switch or a poller once around its indices: which bound tracks it meets in which
order, and what the loops of `on` and `poll` do at each of them. -/
namespace ConduitRuntime.Routing
open Memory ConduitRuntime.Ring
set_option autoImplicit false

variable {τ A C : Type} {n size : ℕ}

/-! ## The order of the walk -/

/-- The bound indices with their tracks, in the order the loop meets them. -/
def boundAmong (array : ℕ → Option τ) (is : List ℕ) : List (ℕ × τ) :=
  is.filterMap fun i => (array i).map fun t => (i, t)

def scan (n : ℕ) (array : ℕ → Option τ) (next : ℕ) : List (ℕ × τ) :=
  boundAmong array (indices n next)

theorem indices_eq_rotate (n next : ℕ) : indices n next = (List.range n).rotate next := by
  apply List.ext_getElem
  · simp [indices]
  · intro k h₁ h₂
    simp [indices, List.getElem_rotate, Nat.add_comm]

theorem boundAmong_cons (array : ℕ → Option τ) (i : ℕ) (is : List ℕ) :
    boundAmong array (i :: is) =
      ((array i).map fun t => (i, t)).toList ++ boundAmong array is := by
  cases h : array i <;> simp [boundAmong, h]

theorem boundAmong_snd (array : ℕ → Option τ) (is : List ℕ) :
    (boundAmong array is).map Prod.snd = is.filterMap array := by
  induction is with
  | nil => rfl
  | cons i is ih =>
    rw [boundAmong_cons, List.map_append, ih]
    cases h : array i <;> simp [h]

theorem scan_perm (n : ℕ) (array : ℕ → Option τ) (next : ℕ) :
    ((scan n array next).map Prod.snd).Perm (boundTracks n array) := by
  rw [scan, boundAmong_snd, indices_eq_rotate]
  exact (List.rotate_perm _ _).filterMap _

theorem scan_length (n : ℕ) (array : ℕ → Option τ) (next : ℕ) :
    ((scan n array next).map Prod.snd).length = (boundTracks n array).length :=
  (scan_perm n array next).length_eq

theorem mem_scan_iff (n : ℕ) (array : ℕ → Option τ) (next : ℕ) (t : τ) :
    t ∈ (scan n array next).map Prod.snd ↔ t ∈ boundTracks n array :=
  (scan_perm n array next).mem_iff

/-- Once the cursor has moved behind a bound index, the entries before it and that one come last. -/
theorem scan_advance {array : ℕ → Option τ} {next idx : ℕ} {t : τ} (before : List (ℕ × τ))
    {after : List (ℕ × τ)} (h : scan n array next = before ++ (idx, t) :: after) :
    scan n array ((idx + 1) % n) = after ++ (before ++ [(idx, t)]) := by
  obtain ⟨early, late, hl, hearly, hlate⟩ := List.filterMap_eq_append_iff.mp h
  obtain ⟨skipped, i, rest, rfl, hnone, hi, hrest⟩ := List.filterMap_eq_cons_iff.mp hlate
  obtain ⟨t', ht', he⟩ := Option.map_eq_some_iff.mp hi
  obtain ⟨rfl, rfl⟩ := Prod.mk.inj he
  obtain ⟨walked, hwalked⟩ : ∃ walked, walked = early ++ skipped := ⟨_, rfl⟩
  have hl : indices n next = walked ++ i :: rest := by
    rw [hl, hwalked, List.append_assoc]
  have hlen : walked.length < n := by
    have := congrArg List.length hl
    simp [indices] at this
    omega
  have hidx : i = (next + walked.length) % n := by
    have hget : (indices n next)[walked.length]? = some i := by
      rw [hl]
      simp
    simpa [indices, hlen] using hget.symm
  have hrot : indices n ((i + 1) % n) = rest ++ (walked ++ [i]) := by
    have hmod : (i + 1) % n = (next + (walked.length + 1)) % n := by
      rw [hidx, Nat.mod_add_mod, Nat.add_assoc]
    have hr := List.rotate_mod (List.range n) (next + (walked.length + 1))
    rw [List.length_range] at hr
    have hpre : (walked ++ [i]).length = walked.length + 1 := by simp
    rw [indices_eq_rotate, hmod, hr, ← List.rotate_rotate, ← indices_eq_rotate, hl,
      List.append_cons, ← hpre, List.rotate_append_length_eq]
  have hskipped : boundAmong array skipped = [] := by
    simpa [boundAmong] using hnone
  have hlast : boundAmong array [i] = [(i, t')] := by
    simp [boundAmong, ht']
  have hsplit : scan n array ((i + 1) % n) = boundAmong array rest ++
      (boundAmong array early ++ boundAmong array skipped ++ boundAmong array [i]) := by
    rw [scan, hrot, hwalked]
    simp [boundAmong]
  have hearly' : boundAmong array early = before := hearly
  have hrest' : boundAmong array rest = after := hrest
  rw [hsplit, hskipped, hlast, hearly', hrest', List.append_nil]

/-! ## The two loops -/

section Loops
variable [DecidableEq τ]

theorem pushFirst_full {outputs : ℕ → Option τ} (ptr : Option A) {tracks : τ → Conduit A size}
    {is : List ℕ} (h : ∀ b ∈ boundAmong outputs is, (tracks b.2).contents.length + 1 = size) :
    pushFirst outputs ptr tracks is = (tracks, none) := by
  induction is with
  | nil => rfl
  | cons i is ih =>
    rw [boundAmong_cons] at h
    have hrec := ih fun b hb => h b (List.mem_append.mpr (.inr hb))
    cases hi : outputs i with
    | none => simpa [pushFirst, hi] using hrec
    | some t =>
      have hfull : (tracks t).contents.length + 1 = size := h (i, t) (by simp [hi])
      simp [pushFirst, hi, Conduit.push_of_full _ _ hfull, hrec]

theorem pushFirst_room {outputs : ℕ → Option τ} (ptr : Option A) {tracks : τ → Conduit A size}
    {is : List ℕ} {idx : ℕ} {t : τ} (before : List (ℕ × τ)) {after : List (ℕ × τ)}
    (h : boundAmong outputs is = before ++ (idx, t) :: after)
    (hfull : ∀ b ∈ before, (tracks b.2).contents.length + 1 = size)
    (hroom : (tracks t).contents.length + 1 ≠ size) :
    pushFirst outputs ptr tracks is =
      (Function.update tracks t ((tracks t).push ptr).1, some idx) := by
  induction is generalizing before with
  | nil => simp [boundAmong] at h
  | cons i is ih =>
    rw [boundAmong_cons] at h
    cases hi : outputs i with
    | none =>
      rw [hi] at h
      simpa [pushFirst, hi] using ih before h hfull
    | some t' =>
      rw [hi] at h
      cases before with
      | nil =>
        obtain ⟨⟨rfl, rfl⟩, _⟩ : (i = idx ∧ t' = t) ∧ boundAmong outputs is = after := by
          simpa using h
        simp [pushFirst, hi, ((tracks t').push_of_room ptr hroom).1]
      | cons b before =>
        obtain ⟨rfl, hrest⟩ : (i, t') = b ∧
            boundAmong outputs is = before ++ (idx, t) :: after := by
          simpa using h
        have hnext := ih before hrest fun b hb => hfull b (by simp [hb])
        have hb : (tracks t').contents.length + 1 = size := hfull (i, t') (by simp)
        simp [pushFirst, hi, Conduit.push_of_full _ _ hb, hnext]

theorem popFirst_empty {inputs : ℕ → Option τ} (p : C) {tracks : τ → Conduit A size}
    {is : List ℕ} (h : ∀ b ∈ boundAmong inputs is, (tracks b.2).contents = []) :
    popFirst inputs p tracks is = (tracks, none) := by
  induction is with
  | nil => rfl
  | cons i is ih =>
    rw [boundAmong_cons] at h
    have hrec := ih fun b hb => h b (List.mem_append.mpr (.inr hb))
    cases hi : inputs i with
    | none => simpa [popFirst, hi] using hrec
    | some t =>
      have hempty : (tracks t).contents = [] := h (i, t) (by simp [hi])
      simp [popFirst, hi, Conduit.pop_of_empty _ _ hempty, hrec]

/-- The tracks after `pop` on each of `ts`. A null pointer at the front of one of them is lost. -/
def passOver (p : C) (tracks : τ → Conduit A size) (ts : List τ) : τ → Conduit A size :=
  fun u => if u ∈ ts then ((tracks u).pop p).1 else tracks u

@[simp] theorem passOver_nil (p : C) (tracks : τ → Conduit A size) :
    passOver p tracks [] = tracks := by
  funext u
  simp [passOver]

theorem passOver_update (p : C) (tracks : τ → Conduit A size) {t : τ} {ts : List τ}
    (ht : t ∉ ts) :
    passOver p (Function.update tracks t ((tracks t).pop p).1) ts =
      passOver p tracks (t :: ts) := by
  funext u
  by_cases hu : u = t
  · subst hu
    simp [passOver, ht]
  · simp [passOver, hu]

/-- No track of the walk has an event at its front: all are passed over. -/
theorem popFirst_none {inputs : ℕ → Option τ} (p : C) {tracks : τ → Conduit A size} {is : List ℕ}
    (hnodup : ((boundAmong inputs is).map Prod.snd).Nodup)
    (hidle : ∀ b ∈ boundAmong inputs is, (tracks b.2).contents.head?.join = none) :
    popFirst inputs p tracks is =
      (passOver p tracks ((boundAmong inputs is).map Prod.snd), none) := by
  induction is generalizing tracks with
  | nil => rfl
  | cons i is ih =>
    rw [boundAmong_cons] at hnodup hidle ⊢
    cases hi : inputs i with
    | none =>
      rw [hi] at hnodup hidle
      simpa [popFirst, hi] using ih hnodup hidle
    | some t =>
      rw [hi] at hnodup hidle
      obtain ⟨hnotin, hnodup'⟩ : t ∉ (boundAmong inputs is).map Prod.snd ∧
          ((boundAmong inputs is).map Prod.snd).Nodup := by
        simpa using hnodup
      have hptr : ((tracks t).pop p).2.ptr = none := by
        rw [Conduit.pop_ptr]
        exact hidle (i, t) (by simp)
      have hothers : ∀ b ∈ boundAmong inputs is,
          (Function.update tracks t ((tracks t).pop p).1 b.2).contents.head?.join = none := by
        intro b hb
        have hne : b.2 ≠ t := by
          rintro rfl
          exact hnotin (List.mem_map_of_mem hb)
        rw [Function.update_of_ne hne]
        exact hidle b (by simp [hb])
      have hrec := ih hnodup' hothers
      rw [passOver_update p tracks hnotin] at hrec
      simpa [popFirst, hi, hptr] using hrec

/-- The first track of the walk with an event at its front gives it. -/
theorem popFirst_cons {inputs : ℕ → Option τ} (p : C) {tracks : τ → Conduit A size}
    {is : List ℕ} {idx : ℕ} {t : τ} (before : List (ℕ × τ)) {after : List (ℕ × τ)}
    (h : boundAmong inputs is = before ++ (idx, t) :: after)
    (hnodup : (before.map Prod.snd ++ [t]).Nodup)
    (hidle : ∀ b ∈ before, (tracks b.2).contents.head?.join = none) {a : A} {xs : List (Option A)}
    (hne : (tracks t).contents = some a :: xs) :
    popFirst inputs p tracks is =
      (Function.update (passOver p tracks (before.map Prod.snd)) t ((tracks t).pop p).1,
        some (idx, ⟨some a, some .releaseToPool, some p⟩)) := by
  induction is generalizing before tracks with
  | nil => simp [boundAmong] at h
  | cons i is ih =>
    rw [boundAmong_cons] at h
    cases hi : inputs i with
    | none =>
      rw [hi] at h
      simpa [popFirst, hi] using ih before h hnodup hidle hne
    | some t' =>
      rw [hi] at h
      cases before with
      | nil =>
        obtain ⟨⟨rfl, rfl⟩, _⟩ : (i = idx ∧ t' = t) ∧ boundAmong inputs is = after := by
          simpa using h
        simp [popFirst, hi, ((tracks t').pop_of_cons p hne).1]
      | cons b before =>
        obtain ⟨rfl, hrest⟩ : (i, t') = b ∧
            boundAmong inputs is = before ++ (idx, t) :: after := by
          simpa using h
        obtain ⟨hnotin, hnodup'⟩ : t' ∉ before.map Prod.snd ++ [t] ∧
            (before.map Prod.snd ++ [t]).Nodup := List.nodup_cons.mp hnodup
        have htt : t ≠ t' := by
          rintro rfl
          exact hnotin (by simp)
        have hptr : ((tracks t').pop p).2.ptr = none := by
          rw [Conduit.pop_ptr]
          exact hidle (i, t') (by simp)
        have hothers : ∀ b ∈ before,
            (Function.update tracks t' ((tracks t').pop p).1 b.2).contents.head?.join = none := by
          intro b hb
          have hbt : b.2 ≠ t' := by
            rintro rfl
            exact hnotin (List.mem_append_left _ (List.mem_map_of_mem hb))
          rw [Function.update_of_ne hbt]
          exact hidle b (by simp [hb])
        have hrec := ih before hrest hnodup' hothers
          (by rw [Function.update_of_ne htt]; exact hne)
        rw [passOver_update p tracks fun hm => hnotin (List.mem_append_left _ hm),
          Function.update_of_ne htt] at hrec
        simpa [popFirst, hi, hptr] using hrec

end Loops

end ConduitRuntime.Routing
