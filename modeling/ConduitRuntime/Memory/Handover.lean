import ConduitRuntime.Memory.PoolSafety

/-! A pool whose cells change hands. One thread makes an event, a conduit takes it to another, and
that one frees it: besides the steps of `PoolSteps` an owner may pass its cell on. The trace then
accounts for every cell: it has been made once more than it has been freed, or equally often. -/
namespace ConduitRuntime.Memory
open Execution LinkChain TaggedWord
set_option autoImplicit false

inductive HandoverAction (τ : Type)
  | pool (a : PoolAction τ)
  | pass (t u : τ) (idx : ℕ)

/-- Who owns what after `t` has passed the cell `idx` to `u`. -/
def passOwned {τ : Type} [DecidableEq τ] (owned : τ → Finset ℕ) (t u : τ) (idx : ℕ) :
    τ → Finset ℕ :=
  let rest := Function.update owned t ((owned t).erase idx)
  Function.update rest u (insert idx (rest u))

section Handover
variable {τ : Type} [DecidableEq τ]

def handoverStep (s : PoolSystem τ) : HandoverAction τ → Option (PoolSystem τ × PoolEvent τ)
  | .pool a => poolStep s a
  | .pass t u idx =>
    if idx ∈ s.owned t then some ({ s with owned := passOwned s.owned t u idx }, .silent) else none

def HandoverFresh (s : PoolSystem τ) : HandoverAction τ → Prop
  | .pool a => FreshTag s a
  | .pass _ _ _ => True

instance (s : PoolSystem τ) (a : HandoverAction τ) : Decidable (HandoverFresh s a) :=
  match a with
  | .pool a => inferInstanceAs (Decidable (FreshTag s a))
  | .pass _ _ _ => isTrue trivial

/-- How often the cell `i` has been handed out, and how often it has come back. -/
def madeCount (i : ℕ) (es : List (PoolEvent τ)) : ℕ :=
  es.countP fun | .made _ idx => idx == i | _ => false

def freedCount (i : ℕ) (es : List (PoolEvent τ)) : ℕ :=
  es.countP fun | .freed _ idx => idx == i | _ => false

variable {n : ℕ} {s : PoolSystem τ} {l : List ℕ}

theorem PoolInv.pass (h : PoolInv n s l) {t : τ} (u : τ) {idx : ℕ} (hown : idx ∈ s.owned t) :
    PoolInv n { s with owned := passOwned s.owned t u idx } l where
  bound := h.bound
  chain := h.chain
  tag_eq := h.tag_eq
  cells := by
    refine h.cells.pass u hown fun v j => ?_
    have hother : j = idx → v ≠ t → j ∉ s.owned v := by
      rintro rfl hv hj
      exact hv (h.cells.owner_unique hj hown)
    by_cases hu : v = u <;> by_cases ht : v = t <;> by_cases hj : j = idx <;>
      simp_all [passOwned, Function.update_apply]
  threads := h.threads

theorem PoolInv.handoverStep (h : PoolInv n s l) {a : HandoverAction τ} {u : PoolSystem τ}
    {e : PoolEvent τ} (hok : HandoverFresh s a) (hs : handoverStep s a = some (u, e)) :
    ∃ l', PoolInv n u l' ∧ e.Moves l l' := by
  cases a with
  | pool a => exact h.poolStep hok hs
  | pass t v idx =>
    unfold Memory.handoverStep at hs
    dsimp only at hs
    split_ifs at hs with hown
    cases hs
    exact ⟨l, h.pass v hown, rfl⟩

/-! ## The account of every cell -/

/-- Cell by cell, what has been handed out and not come back is what is off the free list. -/
def HandoverCount (n : ℕ) (es : List (PoolEvent τ)) (l : List ℕ) : Prop :=
  ∀ i < n, madeCount i es = freedCount i es + if i ∈ l then 0 else 1

omit [DecidableEq τ] in
theorem HandoverCount.snoc {es : List (PoolEvent τ)} {e : PoolEvent τ} {l' : List ℕ}
    (h : HandoverCount n es l) (hnodup : l.Nodup) (hnodup' : l'.Nodup) (hmove : e.Moves l l') :
    HandoverCount n (es ++ [e]) l' := by
  intro i hi
  have hes := h i hi
  unfold madeCount freedCount at hes ⊢
  rw [List.countP_append, List.countP_append]
  cases e with
  | silent =>
    obtain rfl : l' = l := hmove
    simpa using hes
  | exhausted t =>
    obtain rfl : l' = l := hmove
    simpa using hes
  | made t idx =>
    obtain rfl : l = idx :: l' := hmove
    have hnot := (List.nodup_cons.mp hnodup).1
    by_cases he : i = idx
    · subst he
      simp_all
    · simp_all [Ne.symm he]
  | freed t idx =>
    obtain rfl : l' = idx :: l := hmove
    have hnot := (List.nodup_cons.mp hnodup').1
    by_cases he : i = idx
    · subst he
      simp_all
    · simp_all [Ne.symm he]

theorem handover_invariant {capacity : ℕ} (hpos : 1 ≤ capacity) (hcap : capacity ≤ 2 ^ 32 - 1)
    {memory : ℕ → BitVec 64} {es : List (PoolEvent τ)} {s : PoolSystem τ}
    (h : Exec handoverStep HandoverFresh (poolInit capacity memory) es s) :
    ∃ l, PoolInv capacity s l ∧ HandoverCount capacity es l := by
  refine h.invariant (fun es s => ∃ l, PoolInv capacity s l ∧ HandoverCount capacity es l) ?_ ?_
  · refine ⟨List.range capacity, poolInit_inv hpos hcap memory, fun i hi => ?_⟩
    simp [madeCount, freedCount, hi]
  · rintro es s a t e ⟨l, hi, hacc⟩ hok hs
    obtain ⟨l', hi', hmove⟩ := hi.handoverStep hok hs
    exact ⟨l', hi', hacc.snoc hi.chain.nodup hi'.chain.nodup hmove⟩

/-- Cells may be made by one thread and freed by another. In every interleaving whose exchanges meet
`HandoverFresh` the free list is a chain without repetition, every cell is in exactly one place, on
the free list, with an owner or with a thread that is freeing it, and it is on the free list exactly
when it has come back as often as it was handed out; otherwise it has been handed out once more. -/
theorem pool_handover {capacity : ℕ} (hpos : 1 ≤ capacity) (hcap : capacity ≤ 2 ^ 32 - 1)
    (memory : ℕ → BitVec 64) (es : List (PoolEvent τ)) (s : PoolSystem τ)
    (h : Exec handoverStep HandoverFresh (poolInit capacity memory) es s) :
    ∃ l, Chain s.pool.nextIndex endOfList (index s.pool.freeHead) l ∧ l.Nodup ∧
      (∀ i < capacity, ∃! x, places l s.owned (fun t => (s.pc t).held) x i) ∧
      (∀ i < capacity, i ∈ l ↔ madeCount i es = freedCount i es) ∧
      (∀ i < capacity, i ∉ l → madeCount i es = freedCount i es + 1) := by
  obtain ⟨l, hi, hacc⟩ := handover_invariant hpos hcap h
  refine ⟨l, hi.chain, hi.chain.nodup, hi.cells.exists_unique, ?_, ?_⟩
  · intro i hlt
    have := hacc i hlt
    by_cases hm : i ∈ l <;> simp_all
  · intro i hlt hnot
    simpa [hnot] using hacc i hlt

/-- One thread makes both cells and passes the first on; the other thread frees it. -/
theorem pool_handover_two_threads :
    ∃ (es : List (PoolEvent Bool)) (s : PoolSystem Bool),
      Exec handoverStep HandoverFresh (poolInit 2 fun _ => 0#64) es s ∧ madeCount 0 es = 1 ∧
      ∃ l, Chain s.pool.nextIndex endOfList (index s.pool.freeHead) l ∧ 0 ∈ l ∧ 1 ∉ l ∧
        ∃! x, places l s.owned (fun t => (s.pc t).held) x 1 := by
  have h := exec_of_run (show run handoverStep HandoverFresh (poolInit 2 fun _ => 0#64)
    [.pool (.callMake true), .pool (.step true false), .pool (.step true false),
      .pool (.step true false), .pass true false 0, .pool (.callMake true),
      .pool (.callFree false 0), .pool (.step true false), .pool (.step false false),
      .pool (.step true false), .pool (.step true false), .pool (.step false false),
      .pool (.step false false), .pool (.step false false), .pool (.step false false)] =
      some (_, _) from rfl)
  obtain ⟨l, hc, -, hplaced, hfree, -⟩ := pool_handover (by decide) (by decide) _ _ _ h
  refine ⟨_, _, h, rfl, l, hc, (hfree 0 (by decide)).mpr rfl, fun hm => ?_, hplaced 1 (by decide)⟩
  exact absurd ((hfree 1 (by decide)).mp hm) (by decide)

end Handover

end ConduitRuntime.Memory
