import ConduitRuntime.Memory.Pool

/-! `pinned_slab_allocator`: a bare 32-bit head and the free list threaded through the first four
bytes of the free blocks. A block is modelled by those four bytes. -/
namespace ConduitRuntime.Memory
open LinkChain
set_option autoImplicit false

structure PinnedSlab where
  memory : ℕ → BitVec 32
  headIndex : BitVec 32
  freeCount : BitVec 64

namespace PinnedSlab

/-- The constructor: each block links to the following one, the last to the end. -/
def init (poolSize : ℕ) (memory : ℕ → BitVec 32) : PinnedSlab where
  memory i := if i + 1 < poolSize then BitVec.ofNat 32 (i + 1)
    else if i + 1 = poolSize then 0xFFFFFFFF#32 else memory i
  headIndex := 0#32
  freeCount := BitVec.ofNat 64 poolSize

def nextIndex (p : PinnedSlab) (i : ℕ) : ℕ := (p.memory i).toNat

/-- A store into the first four bytes of a block. -/
def writeWord (p : PinnedSlab) (i : ℕ) (word : BitVec 32) : PinnedSlab :=
  { p with memory := Function.update p.memory i word }

/-- `allocate`, uninterrupted; `object` is what `EventType()` leaves in the block's first four
bytes. -/
def allocate (p : PinnedSlab) (object : BitVec 32) : PinnedSlab × Option ℕ :=
  let currentHead := p.headIndex
  if currentHead = 0xFFFFFFFF#32 then (p, none)
  else
    let nextHead := p.memory currentHead.toNat
    ({ p with headIndex := nextHead, freeCount := p.freeCount - 1 }.writeWord currentHead.toNat
      object, some currentHead.toNat)

/-- `deallocate`, uninterrupted, of the pointer `raw_memory_ + offset`, or of null. -/
def deallocate (poolSize : ℕ) (p : PinnedSlab) (ptr : Option ℤ) : PinnedSlab :=
  match ptr with
  | none => p
  | some offset =>
    if offset < 0 ∨ (poolSize : ℤ) ≤ offset then p
    else
      let blockIndex := BitVec.ofNat 32 offset.toNat
      let currentHead := p.headIndex
      { p.writeWord offset.toNat currentHead with
        headIndex := blockIndex, freeCount := p.freeCount + 1 }

/-- The free list of a slab of `poolSize` blocks. -/
def FreeList (poolSize : ℕ) (p : PinnedSlab) (l : List ℕ) : Prop :=
  Chain p.nextIndex endOfList p.headIndex.toNat l ∧ ∀ i ∈ l, i < poolSize

theorem toNat_eq_endOfList_iff (x : BitVec 32) : x.toNat = endOfList ↔ x = 0xFFFFFFFF#32 :=
  ⟨fun h => BitVec.eq_of_toNat_eq h, fun h => h ▸ rfl⟩

theorem nextIndex_writeWord (p : PinnedSlab) (i : ℕ) (word : BitVec 32) :
    (p.writeWord i word).nextIndex = Function.update p.nextIndex i word.toNat := by
  funext j
  by_cases h : j = i
  · subst h
    simp [nextIndex, writeWord]
  · simp [nextIndex, writeWord, h]

theorem init_freeList {poolSize : ℕ} (hpos : 1 ≤ poolSize) (hsize : poolSize ≤ 2 ^ 32 - 1)
    (memory : ℕ → BitVec 32) :
    FreeList poolSize (init poolSize memory) (List.range poolSize) := by
  refine ⟨?_, fun i hi => List.mem_range.mp hi⟩
  have hlink : ∀ i, i + 1 < poolSize → (init poolSize memory).nextIndex i = i + 1 := by
    intro i hi
    simp only [nextIndex, init, hi, if_true, BitVec.toNat_ofNat]
    omega
  have hend : ∀ i, i + 1 = poolSize → (init poolSize memory).nextIndex i = endOfList := by
    intro i hi
    simp only [nextIndex, init, hi, lt_irrefl, if_false, if_true]
    rfl
  change Chain _ _ 0 _
  rw [List.range_eq_range']
  exact chain_range 0 poolSize (by unfold endOfList; omega) (fun i _ hi => hlink i (by omega))
    (fun i hi => hend i (by omega)) (by omega)

/-! ## The sequential calls on the free list -/

theorem allocate_of_nil {poolSize : ℕ} {p : PinnedSlab} (object : BitVec 32)
    (h : FreeList poolSize p []) : p.allocate object = (p, none) := by
  have he := (toNat_eq_endOfList_iff _).mp (h.1.eq_nil_iff.mp rfl)
  simp [allocate, he]

theorem allocate_of_cons {poolSize i : ℕ} {p : PinnedSlab} {l : List ℕ} (object : BitVec 32)
    (h : FreeList poolSize p (i :: l)) :
    (p.allocate object).2 = some i ∧ FreeList poolSize (p.allocate object).1 l ∧
      (p.allocate object).1.freeCount = p.freeCount - 1 := by
  obtain ⟨hc, hlt⟩ := h
  obtain ⟨hi, ht⟩ := hc.tail
  have hne : p.headIndex ≠ 0xFFFFFFFF#32 := by
    intro he
    exact hc.ne_stop (by simp) (hi.symm.trans ((toNat_eq_endOfList_iff _).mpr he))
  have hnotin : i ∉ l := (List.nodup_cons.mp hc.nodup).1
  simp only [allocate, hi, hne, if_false, true_and]
  refine ⟨⟨?_, fun j hj => hlt j (by simp [hj])⟩, rfl⟩
  rw [nextIndex_writeWord]
  exact ht.update_of_notMem _ hnotin

theorem writeWord_freeList {poolSize i : ℕ} {p : PinnedSlab} {l : List ℕ}
    (h : FreeList poolSize p l) (hnotin : i ∉ l) (word : BitVec 32) :
    FreeList poolSize (p.writeWord i word) l := by
  refine ⟨?_, h.2⟩
  rw [nextIndex_writeWord]
  exact h.1.update_of_notMem _ hnotin

theorem deallocate_freeList {poolSize i : ℕ} {p : PinnedSlab} {l : List ℕ}
    (hsize : poolSize ≤ 2 ^ 32 - 1) (h : FreeList poolSize p l) (hi : i < poolSize)
    (hnotin : i ∉ l) :
    FreeList poolSize (p.deallocate poolSize (some i)) (i :: l) ∧
      (p.deallocate poolSize (some i)).freeCount = p.freeCount + 1 := by
  obtain ⟨hc, hlt⟩ := h
  have hin : ¬ ((i : ℤ) < 0 ∨ (poolSize : ℤ) ≤ i) := by omega
  have hidx : (BitVec.ofNat 32 i).toNat = i := by
    rw [BitVec.toNat_ofNat]
    omega
  simp only [deallocate, hin, if_false, Int.toNat_natCast]
  refine ⟨⟨?_, fun j hj => ?_⟩, trivial⟩
  · have hw := nextIndex_writeWord p i p.headIndex
    change Chain (p.writeWord i p.headIndex).nextIndex _ (BitVec.ofNat 32 i).toNat _
    rw [hidx, hw]
    exact (hc.update_of_notMem _ hnotin).push (by unfold endOfList; omega) (by simp)
  · rcases List.mem_cons.mp hj with rfl | hm
    · exact hi
    · exact hlt j hm

end PinnedSlab

end ConduitRuntime.Memory
