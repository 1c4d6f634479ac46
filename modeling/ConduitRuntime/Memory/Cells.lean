import ConduitRuntime.Foundations.Placement
import Mathlib.Data.Finset.Basic

/-! Where the cells of a shared allocator are: on its free list, with an owner, or with a thread
that is giving one back. Each operation moves one cell. -/
namespace ConduitRuntime.Memory
open Placement
set_option autoImplicit false

/-- Where a cell can be. -/
inductive Place (τ : Type)
  | chain
  | owned (t : τ)
  | held (t : τ)

/-- Which cells each place holds, from the free list `l`, the owners' sets and the cell each thread
is giving back. -/
def places {τ : Type} (l : List ℕ) (owned : τ → Finset ℕ) (held : τ → Option ℕ) : Place τ → ℕ → Prop
  | .chain, i => i ∈ l
  | .owned t, i => i ∈ owned t
  | .held t, i => held t = some i

/-- Every cell below `n` is in exactly one place. -/
def Cells {τ : Type} (n : ℕ) (l : List ℕ) (owned : τ → Finset ℕ) (held : τ → Option ℕ) : Prop :=
  Placed n (places l owned held)

section Cells
variable {τ : Type} {n : ℕ} {l : List ℕ} {owned : τ → Finset ℕ} {held held' : τ → Option ℕ}

theorem Cells.notMem_of_owned (h : Cells n l owned held) {t : τ} {i : ℕ}
    (hi : i ∈ owned t) : i ∉ l := by
  intro hl
  have := Placed.unique h (x := .owned t) (y := .chain) hi hl
  cases this

theorem Cells.notMem_of_held (h : Cells n l owned held) {t : τ} {i : ℕ}
    (hi : held t = some i) : i ∉ l := by
  intro hl
  have := Placed.unique h (x := .held t) (y := .chain) hi hl
  cases this

theorem Cells.owner_unique (h : Cells n l owned held) {t u : τ} {i : ℕ}
    (ht : i ∈ owned t) (hu : i ∈ owned u) : t = u :=
  Place.owned.inj (Placed.unique h (x := .owned t) (y := .owned u) ht hu)

theorem Cells.holder_unique (h : Cells n l owned held) {t u : τ} {i : ℕ}
    (ht : held t = some i) (hu : held u = some i) : t = u :=
  Place.held.inj (Placed.unique h (x := .held t) (y := .held u) ht hu)

theorem Cells.held_ne_of_owned (h : Cells n l owned held) {t u : τ} {i : ℕ}
    (ht : i ∈ owned t) : held u ≠ some i := by
  intro hu
  have := Placed.unique h (x := .owned t) (y := .held u) ht hu
  cases this

theorem Cells.cases (h : Cells n l owned held) {i : ℕ} (hi : i < n) :
    i ∈ l ∨ (∃ t, i ∈ owned t) ∨ ∃ t, held t = some i := by
  obtain ⟨x, hx, _⟩ := Placed.exists_unique h i hi
  cases x with
  | chain => exact .inl hx
  | owned t => exact .inr (.inl ⟨t, hx⟩)
  | held t => exact .inr (.inr ⟨t, hx⟩)

/-- The owners and the threads that give cells back determine what is on the free list. -/
theorem Cells.mem_iff {l' : List ℕ} (h : Cells n l owned held) (h' : Cells n l' owned held)
    (i : ℕ) : i ∈ l ↔ i ∈ l' := by
  have hsub : ∀ {k k' : List ℕ}, Cells n k owned held → Cells n k' owned held → i ∈ k → i ∈ k' := by
    intro k k' hk hk' hi
    rcases hk'.cases (Placed.lt hk .chain i hi) with hm | ⟨t, ht⟩ | ⟨t, ht⟩
    · exact hm
    · exact absurd hi (hk.notMem_of_owned ht)
    · exact absurd hi (hk.notMem_of_held ht)
  exact ⟨hsub h h', hsub h' h⟩

theorem cells_range (n : ℕ) : Cells n (List.range n) (fun _ : τ => ∅) fun _ => none := by
  have hrefs : ∀ (x : Place τ) (i : ℕ),
      places (List.range n) (fun _ : τ => ∅) (fun _ => none) x i ↔ x = .chain ∧ i < n := by
    intro x i
    cases x <;> simp [places]
  constructor
  · intro x i hx
    exact ((hrefs x i).mp hx).2
  · intro i hi
    exact ⟨.chain, (hrefs _ _).mpr ⟨rfl, hi⟩, fun x hx => ((hrefs x i).mp hx).1⟩

/-- Steps that change no thread's held cell. -/
theorem Cells.sameHeld (h : Cells n l owned held) (hheld : ∀ u, held' u = held u) :
    Cells n l owned held' := by
  have he : held' = held := by
    funext u
    exact hheld u
  rw [he]
  exact h

variable [DecidableEq τ]

/-- A thread starts to give back a cell it owns. -/
theorem Cells.release (h : Cells n l owned held) {t : τ} {i : ℕ} (hown : i ∈ owned t)
    (hnone : held t = none) (hheld : ∀ u, held' u = if u = t then some i else held u) :
    Cells n l (Function.update owned t ((owned t).erase i)) held' := by
  refine Placed.move h (x := .owned t) (.held t) hown ?_ ?_
  · intro z
    have hz := Placed.iff_eq h (x := .owned t) hown z
    cases z with
    | chain => simpa [places] using hz
    | owned u =>
      by_cases hu : u = t
      · simp [places, hu]
      · simpa [places, hu] using hz
    | held u =>
      by_cases hu : u = t
      · simp [places, hheld, hu]
      · simpa [places, hheld, hu] using hz
  · intro z j hj
    cases z with
    | chain => rfl
    | owned u => by_cases hu : u = t <;> simp [places, hu, hj]
    | held u => by_cases hu : u = t <;> simp [places, hheld, hu, hnone, Ne.symm hj]

/-- A thread takes the first cell of the free list. -/
theorem Cells.take {i : ℕ} (h : Cells n (i :: l) owned held) (hnot : i ∉ l) (t : τ)
    (hheld : ∀ u, held' u = held u) :
    Cells n l (Function.update owned t (insert i (owned t))) held' := by
  have hi : places (i :: l) owned held .chain i := List.mem_cons_self
  refine Placed.move h (x := .chain) (.owned t) hi ?_ ?_
  · intro z
    have hz := Placed.iff_eq h hi z
    cases z with
    | chain => simp [places, hnot]
    | owned u =>
      by_cases hu : u = t
      · simp [places, hu]
      · simpa [places, hu] using hz
    | held u => simpa [places, hheld] using hz
  · intro z j hj
    cases z with
    | chain => simp [places, hj]
    | owned u => by_cases hu : u = t <;> simp [places, hu, hj]
    | held u => simp [places, hheld]

omit [DecidableEq τ] in
/-- A thread hands a cell it owns over to another one, or keeps it. -/
theorem Cells.pass (h : Cells n l owned held) {t : τ} (u : τ) {i : ℕ} (hown : i ∈ owned t)
    {owned' : τ → Finset ℕ}
    (howned : ∀ v j, j ∈ owned' v ↔ if j = i then v = u else j ∈ owned v) :
    Cells n l owned' held := by
  refine Placed.move h (x := .owned t) (.owned u) hown ?_ ?_
  · intro z
    have hz := Placed.iff_eq h (x := .owned t) hown z
    cases z with
    | chain => simpa [places] using hz
    | owned v => simp [places, howned]
    | held v => simpa [places] using hz
  · intro z j hj
    cases z with
    | chain => rfl
    | owned v => simp [places, howned, hj]
    | held v => rfl

/-- A thread puts the cell it is giving back on the free list. -/
theorem Cells.put (h : Cells n l owned held) {t : τ} {i : ℕ} (hi : held t = some i)
    (hheld : ∀ u, held' u = if u = t then none else held u) :
    Cells n (i :: l) owned held' := by
  refine Placed.move h (x := .held t) .chain hi ?_ ?_
  · intro z
    have hz := Placed.iff_eq h (x := .held t) hi z
    cases z with
    | chain => simp [places]
    | owned u => simpa [places] using hz
    | held u =>
      by_cases hu : u = t
      · simp [places, hheld, hu]
      · simpa [places, hheld, hu] using hz
  · intro z j hj
    cases z with
    | chain => simp [places, hj]
    | owned u => rfl
    | held u => by_cases hu : u = t <;> simp [places, hheld, hu, hi, Ne.symm hj]

end Cells

end ConduitRuntime.Memory
