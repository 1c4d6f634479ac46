import Mathlib.Data.List.Basic
import Mathlib.Tactic.Common

/-! Filling the placeholders of a template by searching for the first one, replacing it, and
searching again from the start. A placeholder is a pair of symbols `a b`. Texts without these
symbols are never taken for one, nor do they complete one with what stands around them, so the
searches together are one pass over the template. -/
namespace ConduitRuntime.Placeholders
set_option autoImplicit false

variable {α : Type} [DecidableEq α] (a b : α)

/-- Where the first placeholder begins. -/
def find : List α → Option ℕ
  | [] => none
  | x :: xs => if x = a ∧ xs.head? = some b then some 0 else (find xs).map (· + 1)

/-- Replace the first placeholder, if there is one. -/
def replaceFirst (text s : List α) : List α :=
  match find a b s with
  | none => s
  | some pos => s.take pos ++ text ++ s.drop (pos + 2)

/-- Fill the placeholders from left to right, as long as there are texts. -/
def fill : List α → List (List α) → List α
  | s, [] => s
  | [], _ :: _ => []
  | x :: xs, t :: ts =>
    if x = a ∧ xs.head? = some b then t ++ fill (xs.drop 1) ts else x :: fill xs (t :: ts)
  termination_by s => s.length
  decreasing_by
    all_goals simp only [List.length_cons, List.length_drop]; omega

/-- A text with neither symbol. -/
structure Inert (t : List α) : Prop where
  ne_nil : t ≠ []
  left : a ∉ t
  right : b ∉ t

variable {a b}

theorem replaceFirst_nil (t : List α) : replaceFirst a b t [] = [] := rfl

theorem replaceFirst_of_head {x : α} {xs : List α} (t : List α)
    (h : x = a ∧ xs.head? = some b) : replaceFirst a b t (x :: xs) = t ++ xs.drop 1 := by
  simp [replaceFirst, find, h]

theorem replaceFirst_of_not_head {x : α} {xs : List α} (t : List α)
    (h : ¬ (x = a ∧ xs.head? = some b)) :
    replaceFirst a b t (x :: xs) = x :: replaceFirst a b t xs := by
  cases hf : find a b xs <;> simp [replaceFirst, find, h, hf]

/-- Filling in an inert text leaves no second symbol at the front that was not there before. -/
theorem head?_replaceFirst {t : List α} (ht : Inert a b t) {s : List α} (hs : s.head? ≠ some b) :
    (replaceFirst a b t s).head? ≠ some b := by
  cases s with
  | nil => exact hs
  | cons x xs =>
    by_cases hx : x = a ∧ xs.head? = some b
    · rw [replaceFirst_of_head t hx]
      cases ht' : t with
      | nil => exact absurd ht' ht.ne_nil
      | cons y ys =>
        intro hy
        cases hy
        exact ht.right (ht' ▸ List.mem_cons_self)
    · rw [replaceFirst_of_not_head t hx]
      exact hs

theorem fill_nil_left (ts : List (List α)) : fill a b [] ts = [] := by
  cases ts with
  | nil => simp [fill]
  | cons t ts => simp [fill]

theorem fill_of_not_head {x : α} {xs : List α} (h : ¬ (x = a ∧ xs.head? = some b))
    (ts : List (List α)) : fill a b (x :: xs) ts = x :: fill a b xs ts := by
  cases ts with
  | nil => simp [fill]
  | cons t ts => rw [fill, if_neg h]

theorem fill_append {t : List α} (ht : a ∉ t) (s : List α) (ts : List (List α)) :
    fill a b (t ++ s) ts = t ++ fill a b s ts := by
  induction t with
  | nil => rfl
  | cons x t ih =>
    have hx : ¬ (x = a ∧ (t ++ s).head? = some b) := by
      rintro ⟨rfl, -⟩
      exact ht List.mem_cons_self
    rw [List.cons_append, fill_of_not_head hx, ih fun hmem => ht (List.mem_cons_of_mem x hmem)]
    rfl

/-- The first replacement, and then the rest. -/
theorem fill_cons {t : List α} (ht : Inert a b t) (ts : List (List α)) (s : List α) :
    fill a b s (t :: ts) = fill a b (replaceFirst a b t s) ts := by
  induction s with
  | nil => rw [replaceFirst_nil, fill_nil_left, fill_nil_left]
  | cons x xs ih =>
    by_cases hx : x = a ∧ xs.head? = some b
    · rw [fill, if_pos hx, replaceFirst_of_head t hx, fill_append ht.left]
    · have hx' : ¬ (x = a ∧ (replaceFirst a b t xs).head? = some b) := by
        rintro ⟨hxa, hb⟩
        exact head?_replaceFirst ht (fun hxs => hx ⟨hxa, hxs⟩) hb
      rw [fill_of_not_head hx, ih, replaceFirst_of_not_head t hx, fill_of_not_head hx']

/-- Searching and replacing again and again is one pass over the template. -/
theorem foldl_replaceFirst {ts : List (List α)} (hts : ∀ t ∈ ts, Inert a b t) (s : List α) :
    ts.foldl (fun s t => replaceFirst a b t s) s = fill a b s ts := by
  induction ts generalizing s with
  | nil => simp [fill]
  | cons t ts ih =>
    rw [List.foldl_cons, ih fun u hu => hts u (List.mem_cons_of_mem t hu),
      fill_cons (hts t List.mem_cons_self)]

end ConduitRuntime.Placeholders
