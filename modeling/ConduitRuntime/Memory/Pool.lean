import ConduitRuntime.Foundations.LinkChain
import ConduitRuntime.Foundations.TaggedWord
import ConduitRuntime.Memory.EventPtr

/-! `pool<T>`: cells that hold either a live object or, while free, the index of the next free
cell, and a head word that packs that index with a tag. A cell is modelled by the 64 bits that
`next` reads: the rest of a live object's bytes never matter to the pool. -/
namespace ConduitRuntime.Memory
open LinkChain TaggedWord
set_option autoImplicit false

structure Pool where
  memory : ℕ → BitVec 64
  freeHead : BitVec 64

/-- `0xFFFFFFFF`, the index that ends the free list. -/
def endOfList : ℕ := 0xFFFFFFFF

namespace Pool

/-- The constructor: each cell links to the following one, the last to the end. -/
def init (capacity : ℕ) (memory : ℕ → BitVec 64) : Pool where
  memory i := if i + 1 < capacity then BitVec.ofNat 64 (i + 1)
    else if i + 1 = capacity then 0xFFFFFFFF#64 else memory i
  freeHead := 0#64

def nextIndex (p : Pool) (i : ℕ) : ℕ := index (p.memory i)

/-- `memory_[idx].next = word`; also any write of an owner into its cell. -/
def writeNext (p : Pool) (idx : ℕ) (word : BitVec 64) : Pool :=
  { p with memory := Function.update p.memory idx word }

/-- `make`, uninterrupted, at the address `this`; `object` is what `T`'s constructor leaves in the
bytes that alias `next`. A spurious failure of the weak exchange only repeats the loop body. -/
def make {C : Type} (p : Pool) (this : C) (object : BitVec 64) : Pool × EventPtr ℕ C :=
  let head := p.freeHead
  let idx := index head
  if idx = endOfList then (p, .null)
  else
    let next := p.memory idx
    ({ p with freeHead := advance head next }.writeNext idx object,
      ⟨some idx, some .releaseToPool, some this⟩)

/-- `free`, uninterrupted, of the cell `idx`. -/
def free (p : Pool) (idx : ℕ) : Pool :=
  let head := p.freeHead
  { p.writeNext idx (head &&& 0xFFFFFFFF#64) with freeHead := advance head (BitVec.ofNat 64 idx) }

/-- The free list of a pool of `capacity` cells. -/
def FreeList (capacity : ℕ) (p : Pool) (l : List ℕ) : Prop :=
  Chain p.nextIndex endOfList (index p.freeHead) l ∧ ∀ i ∈ l, i < capacity

theorem nextIndex_writeNext (p : Pool) (idx : ℕ) (word : BitVec 64) :
    (p.writeNext idx word).nextIndex = Function.update p.nextIndex idx (index word) := by
  funext i
  by_cases h : i = idx
  · subst h
    simp [nextIndex, writeNext]
  · simp [nextIndex, writeNext, h]

theorem index_and_mask (w : BitVec 64) : index (w &&& 0xFFFFFFFF#64) = index w := by
  simp [index, BitVec.and_assoc]

theorem init_freeList {capacity : ℕ} (hpos : 1 ≤ capacity) (hcap : capacity ≤ 2 ^ 32 - 1)
    (memory : ℕ → BitVec 64) : FreeList capacity (init capacity memory) (List.range capacity) := by
  refine ⟨?_, fun i hi => List.mem_range.mp hi⟩
  have hlink : ∀ i, i + 1 < capacity → (init capacity memory).nextIndex i = i + 1 := by
    intro i hi
    simp only [nextIndex, init, hi, if_true]
    exact index_ofNat (by omega)
  have hend : ∀ i, i + 1 = capacity → (init capacity memory).nextIndex i = endOfList := by
    intro i hi
    simp only [nextIndex, init, hi, lt_irrefl, if_false, if_true]
    rfl
  have hhead : index (init capacity memory).freeHead = 0 := by
    simp [init, index]
  rw [hhead, List.range_eq_range']
  exact chain_range 0 capacity (by unfold endOfList; omega) (fun i _ hi => hlink i (by omega))
    (fun i hi => hend i (by omega)) (by omega)

/-! ## The sequential calls on the free list -/

theorem make_of_nil {C : Type} {capacity : ℕ} {p : Pool} (this : C) (object : BitVec 64)
    (h : FreeList capacity p []) : p.make this object = (p, .null) := by
  have he := h.1.eq_nil_iff.mp rfl
  simp [make, he]

theorem make_of_cons {C : Type} {capacity i : ℕ} {p : Pool} {l : List ℕ} (this : C)
    (object : BitVec 64) (h : FreeList capacity p (i :: l)) :
    (p.make this object).2 = ⟨some i, some .releaseToPool, some this⟩ ∧
      FreeList capacity (p.make this object).1 l := by
  obtain ⟨hc, hlt⟩ := h
  obtain ⟨hi, ht⟩ := hc.tail
  have hne : i ≠ endOfList := hc.ne_stop (by simp)
  have hnotin : i ∉ l := (List.nodup_cons.mp hc.nodup).1
  simp only [make, hi, hne, if_false, true_and]
  refine ⟨?_, fun j hj => hlt j (by simp [hj])⟩
  rw [nextIndex_writeNext]
  simp only [writeNext, index_advance]
  exact ht.update_of_notMem _ hnotin

/-- An owner's write into its cell. -/
theorem writeNext_freeList {capacity i : ℕ} {p : Pool} {l : List ℕ} (h : FreeList capacity p l)
    (hnotin : i ∉ l) (word : BitVec 64) : FreeList capacity (p.writeNext i word) l := by
  refine ⟨?_, h.2⟩
  rw [nextIndex_writeNext]
  exact h.1.update_of_notMem _ hnotin

theorem free_freeList {capacity i : ℕ} {p : Pool} {l : List ℕ} (hcap : capacity ≤ 2 ^ 32 - 1)
    (h : FreeList capacity p l) (hi : i < capacity) (hnotin : i ∉ l) :
    FreeList capacity (p.free i) (i :: l) := by
  obtain ⟨hc, hlt⟩ := h
  refine ⟨?_, fun j hj => ?_⟩
  · have hidx : index (p.free i).freeHead = i := by
      simp only [free, index_advance]
      exact index_ofNat (by omega)
    have hnext : (p.free i).nextIndex = Function.update p.nextIndex i (index p.freeHead) := by
      rw [← index_and_mask, ← nextIndex_writeNext]
      rfl
    rw [hidx, hnext]
    exact (hc.update_of_notMem _ hnotin).push (by unfold endOfList; omega) (by simp)
  · rcases List.mem_cons.mp hj with rfl | hm
    · exact hi
    · exact hlt j hm

end Pool

end ConduitRuntime.Memory
