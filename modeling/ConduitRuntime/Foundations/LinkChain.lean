import Mathlib.Data.List.Range
import Mathlib.Logic.Function.Basic
import Mathlib.Tactic.Common

/-! Singly linked chains threaded through a `next` function and ended by a stop value. A chain is
determined by its head, so one that ends never visits a node twice. -/
namespace ConduitRuntime.LinkChain
set_option autoImplicit false

/-- `Chain next stop h l`: following `next` from `h` visits exactly `l` and then meets `stop`. -/
inductive Chain {ν : Type} (next : ν → ν) (stop : ν) : ν → List ν → Prop
  | nil : Chain next stop stop []
  | cons {x : ν} {l : List ν} (hx : x ≠ stop) (h : Chain next stop (next x) l) :
      Chain next stop x (x :: l)

section Chain
variable {ν : Type} {next next' : ν → ν} {stop h x : ν} {l l' : List ν}

theorem Chain.unique (hl : Chain next stop h l) (hl' : Chain next stop h l') : l = l' := by
  induction hl generalizing l' with
  | nil =>
    cases hl' with
    | nil => rfl
    | cons hx _ => exact absurd rfl hx
  | cons hx _ ih =>
    cases hl' with
    | nil => exact absurd rfl hx
    | cons _ ht => rw [ih ht]

theorem Chain.eq_nil_iff (hl : Chain next stop h l) : l = [] ↔ h = stop := by
  cases hl with
  | nil => simp
  | cons hx _ => simp [hx]

theorem Chain.ne_stop (hl : Chain next stop h l) (hx : x ∈ l) : x ≠ stop := by
  induction hl with
  | nil => cases hx
  | cons hne _ ih =>
    rcases List.mem_cons.mp hx with rfl | hm
    · exact hne
    · exact ih hm

/-- From any node of a chain on, the chain is a suffix of the whole. -/
theorem Chain.suffix_of_mem (hl : Chain next stop h l) (hx : x ∈ l) :
    ∃ l', Chain next stop x l' ∧ l' <:+ l := by
  induction hl with
  | nil => cases hx
  | cons hne ht ih =>
    rcases List.mem_cons.mp hx with rfl | hm
    · exact ⟨_, .cons hne ht, List.suffix_refl _⟩
    · obtain ⟨l', hc, hs⟩ := ih hm
      exact ⟨l', hc, hs.trans (List.suffix_cons _ _)⟩

theorem Chain.nodup (hl : Chain next stop h l) : l.Nodup := by
  induction hl with
  | nil => exact List.nodup_nil
  | @cons x l hne ht ih =>
    refine List.nodup_cons.mpr ⟨fun hm => ?_, ih⟩
    obtain ⟨l', hc, hs⟩ := ht.suffix_of_mem hm
    have he := hc.unique (.cons hne ht)
    have hlen := hs.length_le
    rw [he, List.length_cons] at hlen
    omega

/-- Two chains through the same nodes start at the same one. -/
theorem Chain.head_eq {h' : ν} (hl : Chain next stop h l) (hl' : Chain next stop h' l')
    (hmem : ∀ y, y ∈ l ↔ y ∈ l') : h = h' := by
  cases hl with
  | nil =>
    cases hl' with
    | nil => rfl
    | cons hx ht => exact absurd ((hmem h').mpr List.mem_cons_self) (by simp)
  | cons hx ht =>
    obtain ⟨k₁, hc₁, hs₁⟩ := hl'.suffix_of_mem ((hmem h).mp List.mem_cons_self)
    rw [hc₁.unique (.cons hx ht)] at hs₁
    cases hl' with
    | nil => exact absurd ((hmem h).mp List.mem_cons_self) (by simp)
    | cons hx' ht' =>
      obtain ⟨k₂, hc₂, hs₂⟩ :=
        (Chain.cons hx ht).suffix_of_mem ((hmem h').mpr List.mem_cons_self)
      rw [hc₂.unique (.cons hx' ht')] at hs₂
      have heq := hs₁.eq_of_length_le hs₂.length_le
      exact (List.cons.inj heq).1

theorem Chain.congr (hl : Chain next stop h l) (he : ∀ y ∈ l, next y = next' y) :
    Chain next' stop h l := by
  induction hl with
  | nil => exact .nil
  | @cons x l hne _ ih =>
    refine .cons hne ?_
    rw [← he x (by simp)]
    exact ih fun y hy => he y (by simp [hy])

/-- Writing the link of a node outside the chain leaves the chain as it is. -/
theorem Chain.update_of_notMem [DecidableEq ν] (hl : Chain next stop h l) (y : ν) (hx : x ∉ l) :
    Chain (Function.update next x y) stop h l := by
  apply hl.congr
  intro z hz
  have hne : z ≠ x := by
    rintro rfl
    exact hx hz
  exact (Function.update_of_ne hne _ _).symm

/-- Linking a node outside the chain to the head makes it the new head. -/
theorem Chain.push (hl : Chain next stop h l) (hne : x ≠ stop) (hlink : next x = h) :
    Chain next stop x (x :: l) := by
  subst hlink
  exact .cons hne hl

theorem Chain.tail (hl : Chain next stop h (x :: l)) : h = x ∧ Chain next stop (next x) l := by
  cases hl with
  | cons _ ht => exact ⟨rfl, ht⟩

end Chain

/-- The chain that links `k, k+1, …, k+m-1` in order. -/
theorem chain_range {next : ℕ → ℕ} {stop : ℕ} (k m : ℕ) (hstop : k + m ≤ stop)
    (hlink : ∀ i, k ≤ i → i + 1 < k + m → next i = i + 1)
    (hend : ∀ i, i + 1 = k + m → next i = stop)
    (hm : 0 < m) : Chain next stop k (List.range' k m) := by
  induction m generalizing k with
  | zero => omega
  | succ m ih =>
    rw [List.range'_succ]
    refine .cons (by omega) ?_
    by_cases h : m = 0
    · subst h
      rw [hend k (by omega)]
      exact .nil
    · rw [hlink k (by omega) (by omega)]
      exact ih (k + 1) (by omega) (fun i hi hlt => hlink i (by omega) (by omega))
        (fun i hi => hend i (by omega)) (by omega)

end ConduitRuntime.LinkChain
