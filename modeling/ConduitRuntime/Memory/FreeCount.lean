import ConduitRuntime.Foundations.MaskedIndex
import ConduitRuntime.Memory.PinnedSteps
import Mathlib.Data.List.Perm.Subperm

/-! `free_count_` of the pinned slab, which `allocate` and `deallocate` bring up to date in an
access of their own, after the exchange they count. A thread can therefore count a block as taken
before another has counted it as returned. -/
namespace ConduitRuntime.Memory
open Execution MaskedIndex
set_option autoImplicit false

namespace PinnedPc

/-- 1 inside `deallocate`: a block is still to be counted as returned. -/
def returning : PinnedPc → ℕ
  | .freeLoad _ | .freeWrite _ _ | .freeCas _ _ | .freeCount => 1
  | _ => 0

/-- The block that `allocate` has taken and still has to count. -/
def uncounted : PinnedPc → Option ℕ
  | .allocCount block => some block
  | _ => none

end PinnedPc

/-! ## The account of one thread -/

/-- `added` and `subtracted` count what a thread has done to `free_count_`: it has subtracted for
every block it owns, is returning or has added back, but for the one it has just taken. -/
structure Account (added subtracted : ℕ) (owned : Finset ℕ) (pc : PinnedPc) : Prop where
  covered : added + owned.card + pc.returning ≤ subtracted + pc.uncounted.toList.length
  taken : ∀ block ∈ pc.uncounted, block ∈ owned

namespace Account
variable {added subtracted block : ℕ} {owned : Finset ℕ} {pc pc' : PinnedPc}

theorem added_le (h : Account added subtracted owned pc) : added ≤ subtracted := by
  have hcov := h.covered
  cases htaken : pc.uncounted with
  | none =>
    rw [htaken, Option.toList_none, List.length_nil] at hcov
    omega
  | some block =>
    have hpos : 0 < owned.card := Finset.card_pos.mpr ⟨block, h.taken block htaken⟩
    rw [htaken, Option.toList_some, List.length_singleton] at hcov
    omega

/-- A step inside a call that takes, counts and returns nothing. -/
theorem move (h : Account added subtracted owned pc) (hreturn : pc'.returning = pc.returning)
    (hpc : pc.uncounted = none) (hpc' : pc'.uncounted = none) :
    Account added subtracted owned pc' := by
  have hcov := h.covered
  rw [hpc] at hcov
  refine ⟨?_, ?_⟩
  · rw [hpc', hreturn]
    exact hcov
  · rw [hpc']
    exact fun _ hmem => nomatch hmem

theorem take (h : Account added subtracted owned pc) (hreturn : pc.returning = 0)
    (hpc : pc.uncounted = none) :
    Account added subtracted (insert block owned) (.allocCount block) := by
  have hcov := h.covered
  have hcard := Finset.card_insert_le block owned
  rw [hpc, hreturn, Option.toList_none, List.length_nil] at hcov
  refine ⟨?_, ?_⟩
  · simp only [PinnedPc.returning, PinnedPc.uncounted, Option.toList_some, List.length_singleton]
    omega
  · intro b hb
    obtain rfl : block = b := Option.some.inj hb
    exact Finset.mem_insert_self _ _

theorem subtract (h : Account added subtracted owned (.allocCount block)) :
    Account added (subtracted + 1) owned .idle :=
  ⟨h.covered, fun _ hmem => nomatch hmem⟩

theorem release (h : Account added subtracted owned .idle) (hblock : block ∈ owned) :
    Account added subtracted (owned.erase block) (.freeLoad block) := by
  have hcov := h.covered
  have hcard := Finset.card_erase_add_one hblock
  refine ⟨?_, fun _ hmem => nomatch hmem⟩
  simp only [PinnedPc.returning, PinnedPc.uncounted, Option.toList_none, List.length_nil] at hcov ⊢
  omega

theorem add (h : Account added subtracted owned .freeCount) :
    Account (added + 1) subtracted owned .idle := by
  have hcov := h.covered
  refine ⟨?_, fun _ hmem => nomatch hmem⟩
  simp only [PinnedPc.returning, PinnedPc.uncounted, Option.toList_none, List.length_nil] at hcov ⊢
  omega

end Account

/-! ## The account of a run -/

section Runs
variable {τ : Type}

def PinnedEvent.subtracted? : PinnedEvent τ → Option τ
  | .allocated t _ => some t
  | _ => none

def PinnedEvent.added? : PinnedEvent τ → Option τ
  | .deallocated t => some t
  | _ => none

/-- The threads of the `fetch_sub`s of a run, and of its `fetch_add`s. -/
def subtractions (es : List (PinnedEvent τ)) : List τ := es.filterMap PinnedEvent.subtracted?

def additions (es : List (PinnedEvent τ)) : List τ := es.filterMap PinnedEvent.added?

variable [DecidableEq τ]

structure Accounted (poolSize : ℕ) (es : List (PinnedEvent τ)) (s : PinnedSystem τ) : Prop where
  thread : ∀ t, Account ((additions es).count t) ((subtractions es).count t) (s.owned t) (s.pc t)
  total : s.slab.freeCount.toNat + (subtractions es).length = poolSize + (additions es).length

theorem length_le_of_count_le {l l' : List τ} (h : ∀ t, l.count t ≤ l'.count t) :
    l.length ≤ l'.length :=
  (List.subperm_ext_iff.mpr fun t _ => h t).length_le

namespace Accounted
variable {poolSize : ℕ} {es : List (PinnedEvent τ)} {s s' : PinnedSystem τ} {t : τ}
  {e : PinnedEvent τ} {pc : PinnedPc} {owned : Finset ℕ}

theorem init (hsize : poolSize < 2 ^ 64) (memory : ℕ → BitVec 32) :
    Accounted poolSize [] (pinnedInit poolSize memory : PinnedSystem τ) := by
  refine ⟨fun t => ⟨Nat.le_refl _, fun _ hmem => nomatch hmem⟩, ?_⟩
  exact Nat.mod_eq_of_lt hsize

theorem additions_le (h : Accounted poolSize es s) :
    (additions es).length ≤ (subtractions es).length :=
  length_le_of_count_le fun t => (h.thread t).added_le

theorem le_poolSize (h : Accounted poolSize es s) : s.slab.freeCount.toNat ≤ poolSize := by
  have := h.additions_le
  have := h.total
  omega

/-- A step of thread `t` that leaves `free_count_` alone. -/
theorem quiet (h : Accounted poolSize es s) (hsub : e.subtracted? = none) (hadd : e.added? = none)
    (hpc : s'.pc = Function.update s.pc t pc) (howned : s'.owned = Function.update s.owned t owned)
    (hcount : s'.slab.freeCount = s.slab.freeCount)
    (hacc : Account ((additions es).count t) ((subtractions es).count t) owned pc) :
    Accounted poolSize (es ++ [e]) s' := by
  have hsubs : subtractions (es ++ [e]) = subtractions es := by
    simp [subtractions, hsub]
  have hadds : additions (es ++ [e]) = additions es := by
    simp [additions, hadd]
  refine ⟨fun u => ?_, ?_⟩
  · rw [hsubs, hadds, hpc, howned]
    by_cases hut : u = t
    · subst hut
      simpa using hacc
    · simpa [hut] using h.thread u
  · rw [hsubs, hadds, hcount]
    exact h.total

theorem account (h : Accounted poolSize es s) (hpc : s.pc t = pc) :
    Account ((additions es).count t) ((subtractions es).count t) (s.owned t) pc := by
  rw [← hpc]
  exact h.thread t

theorem setPc {pc' : PinnedPc} (h : Accounted poolSize es s) (hpc : s.pc t = pc)
    (hsub : e.subtracted? = none) (hadd : e.added? = none)
    (hreturn : pc'.returning = pc.returning) (hold : pc.uncounted = none)
    (hnew : pc'.uncounted = none) : Accounted poolSize (es ++ [e]) (s.setPc t pc') :=
  h.quiet hsub hadd rfl (Function.update_eq_self t s.owned).symm rfl
    ((h.account hpc).move hreturn hold hnew)

/-- The `fetch_sub` of `allocate`, when there is something to subtract from. -/
theorem fetchSub (h : Accounted poolSize es s) {block : ℕ} (hpc : s.pc t = .allocCount block)
    (hpos : s.slab.freeCount ≠ 0) :
    Accounted poolSize (es ++ [.allocated t block])
      ({ s with slab := { s.slab with freeCount := s.slab.freeCount - 1 } }.setPc t .idle) := by
  have hsubs : subtractions (es ++ [.allocated t block]) = subtractions es ++ [t] := by
    simp [subtractions, PinnedEvent.subtracted?]
  have hadds : additions (es ++ [.allocated t block]) = additions es := by
    simp [additions, PinnedEvent.added?]
  refine ⟨fun u => ?_, ?_⟩
  · rw [hsubs, hadds, List.count_append]
    have hacc := h.thread u
    by_cases hut : u = t
    · subst hut
      rw [hpc] at hacc
      simpa [PinnedSystem.setPc] using hacc.subtract
    · simpa [PinnedSystem.setPc, hut, List.count_singleton, Ne.symm hut] using hacc
  · have hcount : 0 < s.slab.freeCount.toNat :=
      Nat.pos_of_ne_zero fun hzero => hpos (BitVec.eq_of_toNat_eq hzero)
    have htotal := h.total
    rw [hsubs, hadds, List.length_append, List.length_singleton]
    simp only [PinnedSystem.setPc_slab, toNat_pred hcount]
    omega

/-- The `fetch_add` of `deallocate`: the thread has subtracted before. -/
theorem fetchAdd (h : Accounted poolSize es s) (hsize : poolSize < 2 ^ 64)
    (hpc : s.pc t = .freeCount) :
    Accounted poolSize (es ++ [.deallocated t])
      ({ s with slab := { s.slab with freeCount := s.slab.freeCount + 1 } }.setPc t .idle) := by
  have hsubs : subtractions (es ++ [.deallocated t]) = subtractions es := by
    simp [subtractions, PinnedEvent.subtracted?]
  have hadds : additions (es ++ [.deallocated t]) = additions es ++ [t] := by
    simp [additions, PinnedEvent.added?]
  have hthread : ∀ u, Account ((additions es ++ [t]).count u) ((subtractions es).count u)
      (s.owned u) (Function.update s.pc t .idle u) := by
    intro u
    rw [List.count_append]
    have hacc := h.thread u
    by_cases hut : u = t
    · subst hut
      rw [hpc] at hacc
      simpa using hacc.add
    · simpa [hut, List.count_singleton, Ne.symm hut] using hacc
  refine ⟨fun u => ?_, ?_⟩
  · rw [hsubs, hadds]
    exact hthread u
  · have hroom := length_le_of_count_le fun u => (hthread u).added_le
    have htotal := h.total
    rw [List.length_append, List.length_singleton] at hroom
    rw [hsubs, hadds, List.length_append, List.length_singleton]
    simp only [PinnedSystem.setPc_slab,
      toNat_succ (show s.slab.freeCount.toNat + 1 < 2 ^ 64 by omega)]
    omega

end Accounted

/-- No `fetch_sub` finds `free_count_` at zero. -/
def CountPositive (s : PinnedSystem τ) : PinnedAction τ → Prop
  | .step t _ => (s.pc t).uncounted.isSome → s.slab.freeCount ≠ 0
  | _ => True

instance (s : PinnedSystem τ) (a : PinnedAction τ) : Decidable (CountPositive s a) :=
  match a with
  | .step t _ => inferInstanceAs (Decidable ((s.pc t).uncounted.isSome → s.slab.freeCount ≠ 0))
  | .callAllocate _ => isTrue trivial
  | .callDeallocate _ _ => isTrue trivial
  | .write _ _ _ => isTrue trivial

namespace Accounted
variable {poolSize : ℕ} {es : List (PinnedEvent τ)} {s u : PinnedSystem τ} {t : τ}
  {e : PinnedEvent τ}

theorem allocHead {pc : PinnedPc} (h : Accounted poolSize es s) (hpc : s.pc t = pc)
    (hreturn : pc.returning = 0) (hold : pc.uncounted = none) :
    Accounted poolSize (es ++ [(Memory.allocHead s t).2]) (Memory.allocHead s t).1 := by
  unfold Memory.allocHead
  split_ifs
  · exact h.setPc hpc rfl rfl hreturn.symm hold rfl
  · exact h.setPc hpc rfl rfl hreturn.symm hold rfl

theorem threadStep (h : Accounted poolSize es s) (hsize : poolSize < 2 ^ 64) {spurious : Bool}
    (hok : CountPositive s (.step t spurious)) (hs : s.threadStep t spurious = some (u, e)) :
    Accounted poolSize (es ++ [e]) u := by
  unfold PinnedSystem.threadStep at hs
  split at hs
  · cases hs
  · rename_i hpc
    have hm := h.allocHead hpc rfl rfl
    rw [Option.some.inj hs] at hm
    exact hm
  · rename_i currentHead hpc
    cases hs
    exact h.setPc hpc rfl rfl rfl rfl rfl
  · rename_i currentHead nextHead hpc
    split_ifs at hs with hcas
    · cases hs
      exact h.quiet rfl rfl rfl rfl rfl ((h.account hpc).take rfl rfl)
    · have hm := h.allocHead hpc rfl rfl
      rw [Option.some.inj hs] at hm
      exact hm
  · rename_i block hpc
    cases hs
    exact h.fetchSub hpc (hok (by rw [hpc]; rfl))
  · rename_i block hpc
    cases hs
    exact h.setPc hpc rfl rfl rfl rfl rfl
  · rename_i block currentHead hpc
    cases hs
    exact h.quiet rfl rfl rfl (Function.update_eq_self t s.owned).symm rfl
      ((h.account hpc).move rfl rfl rfl)
  · rename_i block currentHead hpc
    split_ifs at hs with hcas
    · cases hs
      exact h.quiet rfl rfl rfl (Function.update_eq_self t s.owned).symm rfl
        ((h.account hpc).move rfl rfl rfl)
    · cases hs
      exact h.setPc hpc rfl rfl rfl rfl rfl
  · rename_i hpc
    cases hs
    exact h.fetchAdd hsize hpc

theorem step (h : Accounted poolSize es s) (hsize : poolSize < 2 ^ 64) {a : PinnedAction τ}
    (hok : CountPositive s a) (hs : pinnedStep s a = some (u, e)) :
    Accounted poolSize (es ++ [e]) u := by
  cases a with
  | callAllocate t =>
    simp only [pinnedStep] at hs
    split_ifs at hs with hpc
    cases hs
    exact h.setPc hpc rfl rfl rfl rfl rfl
  | callDeallocate t block =>
    simp only [pinnedStep] at hs
    split_ifs at hs with hcall
    cases hs
    exact h.quiet rfl rfl rfl rfl rfl ((h.account hcall.1).release hcall.2)
  | write t block word =>
    simp only [pinnedStep] at hs
    split_ifs at hs with hown
    cases hs
    exact h.quiet rfl rfl (Function.update_eq_self t s.pc).symm
      (Function.update_eq_self t s.owned).symm rfl (h.thread t)
  | step t spurious => exact h.threadStep hsize hok hs

theorem of_exec (hsize : poolSize < 2 ^ 64) {memory : ℕ → BitVec 32}
    (h : Exec pinnedStep CountPositive (pinnedInit poolSize memory) es s) :
    Accounted poolSize es s :=
  h.invariant (Accounted poolSize) (init hsize memory) fun _ _ _ _ _ hacc hok hs =>
    hacc.step hsize hok hs

end Accounted

/-- A `fetch_sub` at zero wraps the counter. -/
theorem freeCount_of_not_countPositive {s u : PinnedSystem τ} {a : PinnedAction τ}
    {e : PinnedEvent τ} (hzero : ¬ CountPositive s a) (hs : pinnedStep s a = some (u, e)) :
    u.slab.freeCount.toNat = 2 ^ 64 - 1 := by
  cases a with
  | callAllocate t => exact absurd trivial hzero
  | callDeallocate t block => exact absurd trivial hzero
  | write t block word => exact absurd trivial hzero
  | step t spurious =>
    obtain ⟨hsome, hcount⟩ := Classical.not_imp.mp hzero
    have hcount := not_not.mp hcount
    cases hpc : s.pc t with
    | allocCount block =>
      simp only [pinnedStep, PinnedSystem.threadStep, hpc] at hs
      cases hs
      simp only [PinnedSystem.setPc_slab, hcount]
      rfl
    | _ => simp [hpc, PinnedPc.uncounted] at hsome

/-- In every interleaving whose `fetch_sub`s find the counter above zero, the counter stays within
the pool size in every state; and the condition is exact: the next step, whatever it is, keeps the
counter within the pool size if and only if it meets it. -/
theorem free_count_in_range_iff {poolSize : ℕ} (hsize : poolSize < 2 ^ 64 - 1)
    {memory : ℕ → BitVec 32} {es : List (PinnedEvent τ)} {s : PinnedSystem τ}
    (h : Exec pinnedStep CountPositive (pinnedInit poolSize memory) es s) :
    s.slab.freeCount.toNat ≤ poolSize ∧
      ∀ a u e, pinnedStep s a = some (u, e) →
        (u.slab.freeCount.toNat ≤ poolSize ↔ CountPositive s a) := by
  have hacc := Accounted.of_exec (by omega) h
  refine ⟨hacc.le_poolSize, fun a u e hs => ⟨fun hle => ?_, fun hok => ?_⟩⟩
  · by_contra hzero
    have := freeCount_of_not_countPositive hzero hs
    omega
  · exact (hacc.step (by omega) hok hs).le_poolSize

/-- Two threads and one block: the second takes it before the first has counted it as returned, but
counts only afterwards. -/
theorem free_count_in_range_iff_one_block :
    ∃ (es : List (PinnedEvent Bool)) (s : PinnedSystem Bool),
      Exec pinnedStep CountPositive (pinnedInit 1 fun _ => 0#32) es s ∧
      s.pc false = .allocCount 0 ∧ s.slab.freeCount.toNat ≤ 1 := by
  have h := exec_of_run (show run pinnedStep CountPositive (pinnedInit 1 fun _ => 0#32)
    [.callAllocate true, .step true false, .step true false, .step true false, .step true false,
      .callDeallocate true 0, .step true false, .step true false, .step true false,
      .callAllocate false, .step false false, .step false false, .step false false,
      .step true false] = some (_, _) from rfl)
  exact ⟨_, _, h, rfl, (free_count_in_range_iff (by decide) h).1⟩

/-- One block: thread `true` has put it back on the list and not yet counted, thread `false` takes
it and counts first. Every exchange of the run was sound, and the counter of a pool of one block
shows `2 ^ 64 - 1`. -/
theorem free_count_wraps :
    ∃ (es : List (PinnedEvent Bool)) (s : PinnedSystem Bool),
      Exec pinnedStep NextCurrent (pinnedInit 1 fun _ => 0#32) es s ∧
      s.pc true = .freeCount ∧ s.slab.freeCount.toNat = 2 ^ 64 - 1 := by
  have h := exec_of_run (show run pinnedStep NextCurrent (pinnedInit 1 fun _ => 0#32)
    [.callAllocate true, .step true false, .step true false, .step true false, .step true false,
      .callDeallocate true 0, .step true false, .step true false, .step true false,
      .callAllocate false, .step false false, .step false false, .step false false,
      .step false false] = some (_, _) from rfl)
  exact ⟨_, _, h, rfl, rfl⟩

end Runs

end ConduitRuntime.Memory
