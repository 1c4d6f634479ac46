import ConduitRuntime.Foundations.LifoStack
import ConduitRuntime.Memory.Pinned
import ConduitRuntime.Memory.Slab

/-! The three allocators are the same stack of cells in three representations. -/
namespace ConduitRuntime.Memory
open Execution LifoStack
set_option autoImplicit false

/-! ## The three implementations -/

/-- `pool<T>`, seen through the cell an `event_ptr` points to. -/
def poolAllocator : Allocator Pool (BitVec 64) where
  make p object := ((p.make () object).1, (p.make () object).2.ptr)
  free p i := p.free i
  write p i object := p.writeNext i object

def slabAllocator (π : Type) : Allocator (Slab π) π where
  make s payload := s.allocate payload
  free s i := s.deallocate (some i)
  write s i payload := s.writePayload i payload

def pinnedAllocator (poolSize : ℕ) : Allocator PinnedSlab (BitVec 32) where
  make p object := p.allocate object
  free p i := p.deallocate poolSize (some i)
  write p i object := p.writeWord i object

/-- The slab's free list and its counter. -/
def PinnedSlab.Counted (poolSize : ℕ) (p : PinnedSlab) (l : List ℕ) : Prop :=
  PinnedSlab.FreeList poolSize p l ∧ p.freeCount = BitVec.ofNat 64 l.length

variable {n : ℕ}

theorem poolAllocator_implements (hcap : n ≤ 2 ^ 32 - 1) :
    Implements poolAllocator n (Pool.FreeList n) where
  make_nil p object h := by
    have hm := Pool.make_of_nil () object h
    exact ⟨congrArg (fun r => r.2.ptr) hm, (congrArg Prod.fst hm) ▸ h⟩
  make_cons p object i l h := by
    obtain ⟨hptr, hfree⟩ := Pool.make_of_cons () object h
    exact ⟨congrArg EventPtr.ptr hptr, hfree⟩
  free p i l h hi hnot := Pool.free_freeList hcap h hi hnot
  write p i object l h hnot := Pool.writeNext_freeList h hnot object

theorem slabAllocator_implements (π : Type) (hcap : n ≤ 2 ^ 32 - 1) :
    Implements (slabAllocator π) n (Slab.FreeList n) where
  make_nil s payload h := by
    have hm := Slab.allocate_of_nil payload h
    exact ⟨congrArg Prod.snd hm, (congrArg Prod.fst hm) ▸ h⟩
  make_cons s payload i l h := Slab.allocate_of_cons payload h
  free s i l h hi hnot := Slab.deallocate_freeList hcap h hi hnot
  write s i payload l h _ := Slab.writePayload_freeList h i payload

theorem pinnedAllocator_implements (hcap : n ≤ 2 ^ 32 - 1) :
    Implements (pinnedAllocator n) n (PinnedSlab.Counted n) where
  make_nil p object h := by
    have hm := PinnedSlab.allocate_of_nil object h.1
    exact ⟨congrArg Prod.snd hm, (congrArg Prod.fst hm) ▸ h⟩
  make_cons p object i l h := by
    obtain ⟨hptr, hfree, hcount⟩ := PinnedSlab.allocate_of_cons object h.1
    refine ⟨hptr, hfree, hcount.trans ?_⟩
    rw [h.2, List.length_cons, BitVec.ofNat_add]
    exact BitVec.add_sub_cancel _ _
  free p i l h hi hnot := by
    obtain ⟨hfree, hcount⟩ := PinnedSlab.deallocate_freeList hcap h.1 hi hnot
    refine ⟨hfree, hcount.trans ?_⟩
    rw [h.2, List.length_cons, BitVec.ofNat_add]
    rfl
  write p i object l h hnot := ⟨PinnedSlab.writeWord_freeList h.1 hnot object, h.2⟩

/-! ## The pool as a stack -/

/-- Every sequential history of a pool is one of the stack that starts with `0, 1, …, n-1`, with the
same answers; `make` answers null exactly when all cells are live, and returns the cell that was
freed last. -/
theorem pool_is_lifo_stack (hpos : 1 ≤ n) (hcap : n ≤ 2 ^ 32 - 1) (memory : ℕ → BitVec 64)
    (es : List ClientEvent) (s : Client Pool)
    (h : Exec (clientStep poolAllocator) LiveOnly ⟨Pool.init n memory, []⟩ es s) :
    ∃ stack, Exec (clientStep (stackAllocator (BitVec 64))) LiveOnly ⟨List.range n, []⟩ es
        ⟨stack, s.live⟩ ∧
      s.live.Nodup ∧
      (∀ object, (poolAllocator.make s.heap object).2 = stack.head?) ∧
      (∀ object, (poolAllocator.make s.heap object).2 = none ↔ s.live.length = n) ∧
      ∀ i ∈ s.live, ∀ object,
        (poolAllocator.make (poolAllocator.free s.heap i) object).2 = some i := by
  have himpl := poolAllocator_implements hcap
  obtain ⟨stack, hr, hb, hx⟩ := himpl.exec (Pool.init_freeList hpos hcap memory) h
  refine ⟨stack, hx, hb.nodup.of_append_right, fun object => (himpl.make object hr).1, ?_, ?_⟩
  · intro object
    have hlen := hb.length
    rw [(himpl.make object hr).1, List.head?_eq_none_iff, ← List.length_eq_zero_iff]
    omega
  · intro i hi object
    exact (himpl.make object (himpl.free s.heap i stack hr (hb.lt hi) (hb.notMem hi))).1

/-- Two cells: both are taken and overwritten, the pool is exhausted, and the cell freed last comes
back first. -/
theorem pool_is_lifo_stack_two_cells :
    ∃ (es : List ClientEvent) (s : Client Pool),
      Exec (clientStep poolAllocator) LiveOnly ⟨Pool.init 2 fun _ => 0#64, []⟩ es s ∧
      es = [.made (some 0), .made (some 1), .wrote 0, .made none, .freed 1, .freed 0,
        .made (some 0), .made (some 1)] ∧
      ((poolAllocator.make s.heap 0#64).2 = none ↔ s.live.length = 2) := by
  have h := exec_of_run (show run (clientStep poolAllocator) LiveOnly
    ⟨Pool.init 2 fun _ => 0#64, []⟩
    [.make 7#64, .make 8#64, .write 0 9#64, .make 0#64, .free 1, .free 0, .make 5#64, .make 6#64] =
    some ([.made (some 0), .made (some 1), .wrote 0, .made none, .freed 1, .freed 0,
      .made (some 0), .made (some 1)], _) from rfl)
  obtain ⟨_, _, _, _, hnull, _⟩ := pool_is_lifo_stack (by decide) (by decide) _ _ _ h
  exact ⟨_, _, h, rfl, hnull 0#64⟩

/-! ## The three side by side -/

/-- A pool, a slab and a pinned slab that get the same calls; `live` are the cells given out. -/
structure Trio (π : Type) where
  pool : Pool
  slab : Slab π
  pinned : PinnedSlab
  live : List ℕ

/-- An object as each of the three stores it. -/
structure TrioObject (π : Type) where
  pool : BitVec 64
  slab : π
  pinned : BitVec 32

inductive TrioEvent
  | made (pool slab pinned : Option ℕ)
  | freed (i : ℕ)
  | wrote (i : ℕ)

section Trio
variable {π : Type}

def trioInit (n : ℕ) (pool : ℕ → BitVec 64) (slab : ℕ → Slot π) (pinned : ℕ → BitVec 32) :
    Trio π where
  pool := .init n pool
  slab := .init n slab
  pinned := .init n pinned
  live := []

def trioStep (n : ℕ) (s : Trio π) : ClientCall (TrioObject π) → Option (Trio π × TrioEvent)
  | .make object =>
    let (pool, answer) := poolAllocator.make s.pool object.pool
    let (slab, answer₂) := (slabAllocator π).make s.slab object.slab
    let (pinned, answer₃) := (pinnedAllocator n).make s.pinned object.pinned
    some (⟨pool, slab, pinned, answer.toList ++ s.live⟩, .made answer answer₂ answer₃)
  | .free i =>
    some (⟨poolAllocator.free s.pool i, (slabAllocator π).free s.slab i,
      (pinnedAllocator n).free s.pinned i, s.live.erase i⟩, .freed i)
  | .write i object =>
    some (⟨poolAllocator.write s.pool i object.pool, (slabAllocator π).write s.slab i object.slab,
      (pinnedAllocator n).write s.pinned i object.pinned, s.live⟩, .wrote i)

def TrioLiveOnly (s : Trio π) : ClientCall (TrioObject π) → Prop
  | .make _ => True
  | .free i => i ∈ s.live
  | .write i _ => i ∈ s.live

instance (s : Trio π) (c : ClientCall (TrioObject π)) : Decidable (TrioLiveOnly s c) :=
  match c with
  | .make _ => isTrue trivial
  | .free i => inferInstanceAs (Decidable (i ∈ s.live))
  | .write i _ => inferInstanceAs (Decidable (i ∈ s.live))

/-- The three hold the same stack. -/
structure TrioInv (n : ℕ) (s : Trio π) (stack : List ℕ) : Prop where
  pool : Pool.FreeList n s.pool stack
  slab : Slab.FreeList n s.slab stack
  pinned : PinnedSlab.Counted n s.pinned stack
  balanced : Balanced n stack s.live

def TrioEvent.Agrees : TrioEvent → Prop
  | .made pool slab pinned => pool = slab ∧ slab = pinned
  | _ => True

theorem trio_step (hcap : n ≤ 2 ^ 32 - 1) {s t : Trio π} {stack : List ℕ} (h : TrioInv n s stack)
    {c : ClientCall (TrioObject π)} {e : TrioEvent} (hok : TrioLiveOnly s c)
    (hstep : trioStep n s c = some (t, e)) : e.Agrees ∧ ∃ stack', TrioInv n t stack' := by
  have hpool := poolAllocator_implements hcap
  have hslab := slabAllocator_implements π hcap
  have hpinned := pinnedAllocator_implements hcap
  cases c with
  | make object =>
    obtain ⟨rfl, rfl⟩ := Prod.mk.inj (Option.some.inj hstep)
    obtain ⟨ha₁, hr₁⟩ := hpool.make object.pool h.pool
    obtain ⟨ha₂, hr₂⟩ := hslab.make object.slab h.slab
    obtain ⟨ha₃, hr₃⟩ := hpinned.make object.pinned h.pinned
    refine ⟨⟨ha₁.trans ha₂.symm, ha₂.trans ha₃.symm⟩, stack.tail, hr₁, hr₂, hr₃, ?_⟩
    rw [ha₁]
    exact h.balanced.makeAnswer
  | free i =>
    obtain ⟨rfl, rfl⟩ := Prod.mk.inj (Option.some.inj hstep)
    have hlt := h.balanced.lt hok
    have hnot := h.balanced.notMem hok
    exact ⟨trivial, i :: stack, hpool.free _ i stack h.pool hlt hnot,
      hslab.free _ i stack h.slab hlt hnot, hpinned.free _ i stack h.pinned hlt hnot,
      h.balanced.free hok⟩
  | write i object =>
    obtain ⟨rfl, rfl⟩ := Prod.mk.inj (Option.some.inj hstep)
    have hnot := h.balanced.notMem hok
    exact ⟨trivial, stack, hpool.write _ i object.pool stack h.pool hnot,
      hslab.write _ i object.slab stack h.slab hnot,
      hpinned.write _ i object.pinned stack h.pinned hnot, h.balanced⟩

theorem trio_init (hpos : 1 ≤ n) (hcap : n ≤ 2 ^ 32 - 1) (pool : ℕ → BitVec 64)
    (slab : ℕ → Slot π) (pinned : ℕ → BitVec 32) :
    TrioInv n (trioInit n pool slab pinned) (List.range n) where
  pool := Pool.init_freeList hpos hcap pool
  slab := Slab.init_freeList hpos hcap slab
  pinned := by
    refine ⟨PinnedSlab.init_freeList hpos hcap pinned, ?_⟩
    rw [List.length_range]
    rfl
  balanced := balanced_init n

/-- After every sequential history the three have answered every allocation alike, and the pinned
slab's counter is the number of cells that are not live. -/
theorem allocators_agree (hpos : 1 ≤ n) (hcap : n ≤ 2 ^ 32 - 1) (pool : ℕ → BitVec 64)
    (slab : ℕ → Slot π) (pinned : ℕ → BitVec 32) (es : List TrioEvent) (s : Trio π)
    (h : Exec (trioStep n) TrioLiveOnly (trioInit n pool slab pinned) es s) :
    (∀ r₁ r₂ r₃, TrioEvent.made r₁ r₂ r₃ ∈ es → r₁ = r₂ ∧ r₂ = r₃) ∧
      s.live.Nodup ∧ s.live.length ≤ n ∧ s.pinned.freeCount.toNat = n - s.live.length := by
  have hinv : (∀ e ∈ es, e.Agrees) ∧ ∃ stack, TrioInv n s stack := by
    refine h.invariant (fun es s => (∀ e ∈ es, e.Agrees) ∧ ∃ stack, TrioInv n s stack) ?_ ?_
    · exact ⟨fun _ he => absurd he List.not_mem_nil, _, trio_init hpos hcap pool slab pinned⟩
    · rintro es s c t e ⟨hes, stack, hi⟩ hok hstep
      obtain ⟨he, hi'⟩ := trio_step hcap hi hok hstep
      refine ⟨fun e' he' => ?_, hi'⟩
      rcases List.mem_append.mp he' with hm | hm
      · exact hes e' hm
      · rw [List.mem_singleton.mp hm]
        exact he
  obtain ⟨hes, stack, hi⟩ := hinv
  have hlen := hi.balanced.length
  refine ⟨fun r₁ r₂ r₃ hm => hes _ hm, hi.balanced.nodup.of_append_right, by omega, ?_⟩
  rw [hi.pinned.2, BitVec.toNat_ofNat]
  omega

/-- Two cells, taken, freed in the other order and taken again. -/
theorem allocators_agree_two_cells :
    ∃ (es : List TrioEvent) (s : Trio Bool),
      Exec (trioStep 2) TrioLiveOnly
        (trioInit 2 (fun _ => 0#64) (fun _ => ⟨true, 0, 0⟩) fun _ => 0#32)
        es s ∧ s.live = [1] ∧ s.pinned.freeCount.toNat = 2 - 1 := by
  have h := exec_of_run (show run (trioStep 2) TrioLiveOnly
    (trioInit 2 (fun _ => 0#64) (fun _ => ⟨true, 0, 0⟩) fun _ => 0#32)
    [.make ⟨7#64, false, 7#32⟩, .make ⟨8#64, true, 8#32⟩, .write 0 ⟨9#64, true, 9#32⟩, .free 0,
      .free 1, .make ⟨5#64, true, 5#32⟩] = some (_, _) from rfl)
  obtain ⟨_, _, _, hcount⟩ := allocators_agree (by decide) (by decide) _ _ _ _ _ h
  exact ⟨_, _, h, rfl, hcount⟩

end Trio

end ConduitRuntime.Memory
