import ConduitRuntime.Memory.Agreement

/-! `pool::make` when `T`'s constructor may throw. The cell is off the free list before the
constructor runs, and the handle that would bring it back is only built afterwards: an exception
leaves the cell neither free nor live. -/
namespace ConduitRuntime.Memory
open Execution LifoStack
set_option autoImplicit false

variable {n : ℕ}

namespace Pool

/-- `make` with a constructor that leaves `object` in the bytes that alias `next` and then returns
or throws. The exception passes through `make`, which has no handler. -/
def makeThrowing {C : Type} (p : Pool) (this : C) (object : BitVec 64) (throws : Bool) :
    Pool × Except Unit (EventPtr ℕ C) :=
  let head := p.freeHead
  let idx := TaggedWord.index head
  if idx = endOfList then (p, .ok .null)
  else
    let next := p.memory idx
    let taken := { p with freeHead := TaggedWord.advance head next }
    let constructed := taken.writeNext idx object
    if throws then (constructed, .error ())
    else (constructed, .ok ⟨some idx, some .releaseToPool, some this⟩)

theorem makeThrowing_false {C : Type} (p : Pool) (this : C) (object : BitVec 64) :
    p.makeThrowing this object false = ((p.make this object).1, .ok (p.make this object).2) := by
  by_cases hend : TaggedWord.index p.freeHead = endOfList
  · simp [makeThrowing, make, hend]
  · simp [makeThrowing, make, hend]

theorem makeThrowing_true {C : Type} (p : Pool) (this : C) (object : BitVec 64) :
    p.makeThrowing this object true = ((p.make this object).1,
      if (p.make this object).2.ptr.isSome then .error () else .ok .null) := by
  by_cases hend : TaggedWord.index p.freeHead = endOfList
  · simp [makeThrowing, make, hend, EventPtr.null]
  · simp [makeThrowing, make, hend]

/-- The cell is on the free list. -/
def Free (n : ℕ) (p : Pool) (i : ℕ) : Prop := ∃ l, FreeList n p l ∧ i ∈ l

theorem free_iff {p : Pool} {l : List ℕ} (h : FreeList n p l) (i : ℕ) : Free n p i ↔ i ∈ l := by
  constructor
  · intro hfree
    obtain ⟨l', h', hi⟩ := hfree
    rwa [h.1.unique h'.1]
  · intro hi
    exact ⟨l, h, hi⟩

/-- A constructor that throws leaves the free cells alone only when no cell is free: `make` then
returns null before it gets to the constructor. -/
theorem makeThrowing_free_iff {C : Type} {p : Pool} {l : List ℕ} (h : FreeList n p l) (this : C)
    (object : BitVec 64) :
    (∀ i, Free n (p.makeThrowing this object true).1 i ↔ Free n p i) ↔
      (p.makeThrowing this object true).2 = .ok .null := by
  rw [makeThrowing_true]
  cases l with
  | nil =>
    rw [make_of_nil this object h]
    simp [EventPtr.null]
  | cons j l =>
    obtain ⟨hanswer, hrest⟩ := make_of_cons this object h
    have hnotin : j ∉ l := (List.nodup_cons.mp h.1.nodup).1
    simp only [hanswer, Option.isSome_some, if_true, reduceCtorEq, iff_false]
    intro hsame
    have hj := hsame j
    rw [free_iff hrest, free_iff h] at hj
    exact hnotin (hj.mpr (by simp))

end Pool

/-! ## Histories with exceptions -/

inductive ThrowingCall
  | make (object : BitVec 64) (throws : Bool)
  | free (i : ℕ)
  | write (i : ℕ) (object : BitVec 64)

inductive ThrowingEvent
  | made (answer : Option ℕ)
  | threw
  | freed (i : ℕ)
  | wrote (i : ℕ)
  deriving DecidableEq

def throwingStep (s : Client Pool) : ThrowingCall → Option (Client Pool × ThrowingEvent)
  | .make object throws =>
    let (pool, result) := s.heap.makeThrowing () object throws
    match result with
    | .ok handle => some (⟨pool, handle.ptr.toList ++ s.live⟩, .made handle.ptr)
    | .error _ => some (⟨pool, s.live⟩, .threw)
  | .free i => some (⟨s.heap.free i, s.live.erase i⟩, .freed i)
  | .write i object => some (⟨s.heap.writeNext i object, s.live⟩, .wrote i)

/-- Only live events are freed or written. -/
def ThrowingLiveOnly (s : Client Pool) : ThrowingCall → Prop
  | .make _ _ => True
  | .free i => i ∈ s.live
  | .write i _ => i ∈ s.live

instance (s : Client Pool) (c : ThrowingCall) : Decidable (ThrowingLiveOnly s c) :=
  match c with
  | .make _ _ => isTrue trivial
  | .free i => inferInstanceAs (Decidable (i ∈ s.live))
  | .write i _ => inferInstanceAs (Decidable (i ∈ s.live))

/-- The pool cannot tell an exception from a client that keeps its cell: the history is one of a
client without exceptions that holds the live cells and never returns the `lost` ones. -/
def Keeps (pool₀ : Pool) (es : List ThrowingEvent) (s : Client Pool) : Prop :=
  ∃ fs held lost, Exec (clientStep poolAllocator) LiveOnly ⟨pool₀, []⟩ fs ⟨s.heap, held⟩ ∧
    held.Perm (s.live ++ lost) ∧ lost.length = es.count .threw

theorem keeps_step {pool₀ : Pool} {es : List ThrowingEvent} {s t : Client Pool} {c : ThrowingCall}
    {e : ThrowingEvent} (h : Keeps pool₀ es s) (hok : ThrowingLiveOnly s c)
    (hstep : throwingStep s c = some (t, e)) : Keeps pool₀ (es ++ [e]) t := by
  obtain ⟨fs, held, lost, hexec, hperm, hlost⟩ := h
  cases c with
  | make object throws =>
    have hmake := hexec.snoc (a := ClientCall.make object) trivial rfl
    cases throws with
    | false =>
      simp only [throwingStep, Pool.makeThrowing_false] at hstep
      cases hstep
      refine ⟨_, _, lost, hmake, ?_, ?_⟩
      · rw [List.append_assoc]
        exact hperm.append_left _
      · simpa using hlost
    | true =>
      simp only [throwingStep, Pool.makeThrowing_true] at hstep
      cases hptr : (s.heap.make () object).2.ptr with
      | none =>
        simp only [hptr, Option.isSome_none, Bool.false_eq_true, if_false] at hstep
        cases hstep
        refine ⟨_, _, lost, hmake, ?_, by simpa using hlost⟩
        simpa [poolAllocator, hptr, EventPtr.null] using hperm
      | some i =>
        simp only [hptr, Option.isSome_some, if_true] at hstep
        cases hstep
        refine ⟨_, _, i :: lost, hmake, ?_, by simp [hlost]⟩
        simp only [poolAllocator, hptr, Option.toList_some, List.singleton_append]
        exact (hperm.cons i).trans List.perm_middle.symm
  | free i =>
    cases hstep
    have hmem : i ∈ held := hperm.mem_iff.mpr (List.mem_append_left _ hok)
    refine ⟨_, _, lost, hexec.snoc (a := ClientCall.free i) hmem rfl, ?_, by simpa using hlost⟩
    rw [← List.erase_append_left lost hok]
    exact hperm.erase i
  | write i object =>
    cases hstep
    have hmem : i ∈ held := hperm.mem_iff.mpr (List.mem_append_left _ hok)
    exact ⟨_, held, lost, hexec.snoc (a := ClientCall.write i object) hmem rfl, hperm,
      by simpa using hlost⟩

/-- Every cell is free, live, or lost to an exception. -/
theorem throwing_balanced (hpos : 1 ≤ n) (hcap : n ≤ 2 ^ 32 - 1) (memory : ℕ → BitVec 64)
    {es : List ThrowingEvent} {s : Client Pool}
    (h : Exec throwingStep ThrowingLiveOnly ⟨Pool.init n memory, []⟩ es s) :
    ∃ stack, Pool.FreeList n s.heap stack ∧
      stack.length + s.live.length + es.count .threw = n := by
  have hkeeps : Keeps (Pool.init n memory) es s :=
    h.invariant (Keeps (Pool.init n memory)) ⟨[], [], [], .nil, .refl _, rfl⟩
      fun _ _ _ _ _ hk hok hs => keeps_step hk hok hs
  obtain ⟨fs, held, lost, hexec, hperm, hlost⟩ := hkeeps
  obtain ⟨stack, hfree, hbalanced, _⟩ :=
    (poolAllocator_implements hcap).exec (Pool.init_freeList hpos hcap memory) hexec
  refine ⟨stack, hfree, ?_⟩
  have hlen := hbalanced.length
  rw [hperm.length_eq, List.length_append, hlost] at hlen
  omega

/-- The number of `make` calls with these objects, one after the other, that get a cell. -/
def successes (p : Pool) (objects : List (BitVec 64)) : ℕ :=
  ((poolAllocator.makeAll p objects).filterMap id).length

/-- After any history, a constructor that throws leaves the free cells as they were exactly when no
cell was taken for it. So the calls that can still succeed are the capacity less the live events
less the exceptions so far, and they are the capacity less the live events exactly when there was no
exception. -/
theorem make_failure_atomic_iff (hpos : 1 ≤ n) (hcap : n ≤ 2 ^ 32 - 1) (memory : ℕ → BitVec 64)
    {es : List ThrowingEvent} {s : Client Pool}
    (h : Exec throwingStep ThrowingLiveOnly ⟨Pool.init n memory, []⟩ es s) :
    (∀ object, (∀ i, Pool.Free n (s.heap.makeThrowing () object true).1 i ↔ Pool.Free n s.heap i) ↔
        (s.heap.makeThrowing () object true).2 = .ok .null) ∧
      (∀ objects, successes s.heap objects =
        min objects.length (n - s.live.length - es.count .threw)) ∧
      ((∀ objects, successes s.heap objects = min objects.length (n - s.live.length)) ↔
        .threw ∉ es) := by
  obtain ⟨stack, hfree, hlen⟩ := throwing_balanced hpos hcap memory h
  have hcount : ∀ objects, successes s.heap objects =
      min objects.length (n - s.live.length - es.count .threw) := by
    intro objects
    rw [successes, (poolAllocator_implements hcap).makeAll hfree, List.length_take]
    congr 1
    omega
  refine ⟨fun object => Pool.makeThrowing_free_iff hfree () object, hcount, ?_, ?_⟩
  · intro hall
    -- enough calls to use up the pool
    have hexact := hall (List.replicate n 0#64)
    rw [hcount, List.length_replicate] at hexact
    rw [← List.count_eq_zero]
    omega
  · intro hnone objects
    rw [hcount, List.count_eq_zero.mpr hnone, Nat.sub_zero]

/-- Two cells: one is live, one was freed again, and nothing has thrown. -/
theorem make_failure_atomic_iff_no_throw :
    ∃ es s, Exec throwingStep ThrowingLiveOnly ⟨Pool.init 2 fun _ => 0#64, []⟩ es s ∧
      s.live = [0] ∧ successes s.heap [1#64, 2#64, 3#64] = 1 := by
  have h := exec_of_run (show run throwingStep ThrowingLiveOnly
    ⟨Pool.init 2 fun _ => 0#64, []⟩ [.make 7#64 false, .make 8#64 false, .free 1] =
    some (_, _) from rfl)
  obtain ⟨_, _, hiff⟩ := make_failure_atomic_iff (by decide) (by decide) _ h
  exact ⟨_, _, h, rfl, hiff.mpr (by decide) [1#64, 2#64, 3#64]⟩

/-- A pool of one cell whose first `make` throws: no event is live, the free cell is gone, and no
`make` succeeds any more. -/
theorem throwing_make_loses_cell :
    (∀ i, Pool.Free 1 (Pool.init 1 fun _ => 0#64) i ↔ i = 0) ∧
      ((Pool.init 1 fun _ => 0#64).makeThrowing () 7#64 true).2 = .error () ∧
      (∀ i, ¬ Pool.Free 1 ((Pool.init 1 fun _ => 0#64).makeThrowing () 7#64 true).1 i) ∧
      ∃ s, Exec throwingStep ThrowingLiveOnly ⟨Pool.init 1 fun _ => 0#64, []⟩ [.threw] s ∧
        s.live = [] ∧ (s.heap.make () 8#64).2 = .null := by
  have hinit : Pool.FreeList 1 (Pool.init 1 fun _ => 0#64) [0] :=
    Pool.init_freeList (by decide) (by decide) _
  have hafter : Pool.FreeList 1 ((Pool.init 1 fun _ => 0#64).makeThrowing () 7#64 true).1 [] :=
    (Pool.make_of_cons () 7#64 hinit).2
  refine ⟨fun i => ?_, rfl, fun i => ?_, _, exec_of_run (show run throwingStep ThrowingLiveOnly
    ⟨Pool.init 1 fun _ => 0#64, []⟩ [.make 7#64 true] = some (_, _) from rfl), rfl, rfl⟩
  · rw [Pool.free_iff hinit]
    simp
  · rw [Pool.free_iff hafter]
    exact List.not_mem_nil

end ConduitRuntime.Memory
