import ConduitRuntime.Memory.Pool

/-! `slab_allocator`: slots that keep the free list's index beside the storage, a head that packs an
index with a counter, and objects that record the index of their own slot. The rest of an object
is an arbitrary payload. -/
namespace ConduitRuntime.Memory
open LinkChain TaggedWord
set_option autoImplicit false

structure Slot (π : Type) where
  payload : π
  internalIndex : BitVec 32
  nextFree : BitVec 32

structure Slab (π : Type) where
  memory : ℕ → Slot π
  freeHead : BitVec 64

def pack (abaCounter index : BitVec 32) : BitVec 64 :=
  (abaCounter.setWidth 64 <<< 32) ||| index.setWidth 64

def unpack (packed : BitVec 64) : BitVec 32 × BitVec 32 :=
  ((packed >>> 32).setWidth 32, (packed &&& 0xFFFFFFFF#64).setWidth 32)

theorem index_eq_unpack (w : BitVec 64) : index w = (unpack w).2.toNat := by
  have h := index_lt w
  unfold unpack
  rw [BitVec.toNat_setWidth]
  change _ = index w % 2 ^ 32
  omega

theorem tag_eq_unpack (w : BitVec 64) : tag w = (unpack w).1.toNat := by
  have h := tag_lt w
  unfold unpack
  rw [BitVec.toNat_setWidth]
  change _ = tag w % 2 ^ 32
  omega

theorem pack_toNat (abaCounter i : BitVec 32) :
    (pack abaCounter i).toNat = abaCounter.toNat * 2 ^ 32 + i.toNat := by
  have ha := abaCounter.isLt
  have hi := i.isLt
  have hshift : (abaCounter.setWidth 64 <<< 32).toNat = abaCounter.toNat <<< 32 := by
    rw [BitVec.toNat_shiftLeft, BitVec.toNat_setWidth, Nat.shiftLeft_eq, Nat.shiftLeft_eq]
    omega
  have hwide : (i.setWidth 64).toNat = i.toNat := by
    rw [BitVec.toNat_setWidth]
    omega
  rw [pack, BitVec.toNat_or, hshift, hwide, ← Nat.shiftLeft_add_eq_or_of_lt hi, Nat.shiftLeft_eq]

theorem unpack_pack_index (abaCounter i : BitVec 32) : (unpack (pack abaCounter i)).2 = i := by
  apply BitVec.eq_of_toNat_eq
  have hi := i.isLt
  rw [← index_eq_unpack, index_eq, pack_toNat]
  omega

namespace Slab
variable {π : Type}

/-- The constructor: each slot links to the following one, the last to the end. -/
def init (capacity : ℕ) (memory : ℕ → Slot π) : Slab π where
  memory i := { memory i with
    nextFree := if i + 1 < capacity then BitVec.ofNat 32 (i + 1)
      else if i + 1 = capacity then 0xFFFFFFFF#32 else (memory i).nextFree }
  freeHead := pack 0 0

/-- `allocate`, uninterrupted; the payload is what `T`'s constructor builds. -/
def allocate (s : Slab π) (payload : π) : Slab π × Option ℕ :=
  let (abaCounter, index) := unpack s.freeHead
  if index = 0xFFFFFFFF#32 then (s, none)
  else
    let slot := s.memory index.toNat
    ({ memory := Function.update s.memory index.toNat
          { slot with payload := payload, internalIndex := index }
       freeHead := pack (abaCounter + 1) slot.nextFree }, some index.toNat)

/-- `deallocate`, uninterrupted, of the object in slot `ptr`, or of null. -/
def deallocate (s : Slab π) (ptr : Option ℕ) : Slab π :=
  match ptr with
  | none => s
  | some i =>
    let index := (s.memory i).internalIndex
    let (abaCounter, currentIndex) := unpack s.freeHead
    { memory := Function.update s.memory index.toNat
        { s.memory index.toNat with nextFree := currentIndex }
      freeHead := pack (abaCounter + 1) index }

/-- A write of the owner into its object, outside `internal_index`. -/
def writePayload (s : Slab π) (i : ℕ) (payload : π) : Slab π :=
  { s with memory := Function.update s.memory i { s.memory i with payload := payload } }

def nextIndex (s : Slab π) (i : ℕ) : ℕ := (s.memory i).nextFree.toNat

/-- The free list of a slab of `capacity` slots; every other slot's object knows its index. -/
structure FreeList (capacity : ℕ) (s : Slab π) (l : List ℕ) : Prop where
  chain : Chain s.nextIndex endOfList (unpack s.freeHead).2.toNat l
  lt : ∀ i ∈ l, i < capacity
  recorded : ∀ i < capacity, i ∉ l → (s.memory i).internalIndex = BitVec.ofNat 32 i

theorem init_freeList {capacity : ℕ} (hpos : 1 ≤ capacity) (hcap : capacity ≤ 2 ^ 32 - 1)
    (memory : ℕ → Slot π) : FreeList capacity (init capacity memory) (List.range capacity) := by
  have hlink : ∀ i, i + 1 < capacity → (init capacity memory).nextIndex i = i + 1 := by
    intro i hi
    simp only [nextIndex, init, hi, if_true, BitVec.toNat_ofNat]
    omega
  have hend : ∀ i, i + 1 = capacity → (init capacity memory).nextIndex i = endOfList := by
    intro i hi
    simp only [nextIndex, init, hi, lt_irrefl, if_false, if_true]
    rfl
  refine ⟨?_, fun i hi => List.mem_range.mp hi, ?_⟩
  · rw [init, unpack_pack_index, List.range_eq_range']
    exact chain_range 0 capacity (by unfold endOfList; omega) (fun i _ hi => hlink i (by omega))
      (fun i hi => hend i (by omega)) (by omega)
  · intro i hi hnot
    exact absurd (List.mem_range.mpr hi) hnot

/-! ## The sequential calls on the free list -/

theorem allocate_of_nil {capacity : ℕ} {s : Slab π} (payload : π) (h : FreeList capacity s []) :
    s.allocate payload = (s, none) := by
  have hend := h.chain.eq_nil_iff.mp rfl
  have he : (unpack s.freeHead).2 = 0xFFFFFFFF#32 := BitVec.eq_of_toNat_eq hend
  simp [allocate, he]

theorem allocate_of_cons {capacity i : ℕ} {s : Slab π} {l : List ℕ} (payload : π)
    (h : FreeList capacity s (i :: l)) :
    (s.allocate payload).2 = some i ∧ FreeList capacity (s.allocate payload).1 l := by
  obtain ⟨hi, ht⟩ := h.chain.tail
  have hne : (unpack s.freeHead).2 ≠ 0xFFFFFFFF#32 := by
    intro he
    rw [he] at hi
    exact h.chain.ne_stop (by simp) hi.symm
  have hidx : (unpack s.freeHead).2 = BitVec.ofNat 32 i := by
    rw [← hi]
    simp
  have hnotin : i ∉ l := (List.nodup_cons.mp h.chain.nodup).1
  have hstep : s.allocate payload = (Slab.mk (Function.update s.memory i
      { s.memory i with payload := payload, internalIndex := BitVec.ofNat 32 i })
      (pack ((unpack s.freeHead).1 + 1) (s.memory i).nextFree), some i) := by
    simp only [allocate, hne, if_false, hi]
    rw [hidx]
  rw [hstep]
  refine ⟨rfl, ?_, fun j hj => h.lt j (by simp [hj]), ?_⟩
  · rw [unpack_pack_index]
    apply ht.congr
    intro j hj
    have hne' : j ≠ i := by
      rintro rfl
      exact hnotin hj
    simp [nextIndex, hne']
  · intro j hj hnot
    by_cases he : j = i
    · subst he
      simp
    · simp only [Function.update_of_ne he]
      exact h.recorded j hj (by simp [he, hnot])

theorem writePayload_freeList {capacity : ℕ} {s : Slab π} {l : List ℕ} (h : FreeList capacity s l)
    (i : ℕ) (payload : π) : FreeList capacity (s.writePayload i payload) l := by
  refine ⟨?_, h.lt, ?_⟩
  · apply h.chain.congr
    intro j _
    by_cases he : j = i
    · subst he
      simp [nextIndex, writePayload]
    · simp [nextIndex, writePayload, he]
  · intro j hj hnot
    by_cases he : j = i
    · subst he
      simpa [writePayload] using h.recorded j hj hnot
    · simpa [writePayload, he] using h.recorded j hj hnot

theorem deallocate_freeList {capacity i : ℕ} {s : Slab π} {l : List ℕ}
    (hcap : capacity ≤ 2 ^ 32 - 1) (h : FreeList capacity s l) (hi : i < capacity)
    (hnotin : i ∉ l) : FreeList capacity (s.deallocate (some i)) (i :: l) := by
  have hidx : (BitVec.ofNat 32 i).toNat = i := by
    rw [BitVec.toNat_ofNat]
    omega
  have hstep : s.deallocate (some i) = Slab.mk (Function.update s.memory i
      { s.memory i with nextFree := (unpack s.freeHead).2 })
      (pack ((unpack s.freeHead).1 + 1) (BitVec.ofNat 32 i)) := by
    simp only [deallocate, h.recorded i hi hnotin, hidx]
  rw [hstep]
  refine ⟨?_, ?_, ?_⟩
  · rw [unpack_pack_index, hidx]
    refine Chain.push (h := (unpack s.freeHead).2.toNat) ?_ (by unfold endOfList; omega) ?_
    · apply h.chain.congr
      intro j hj
      have hne : j ≠ i := by
        rintro rfl
        exact hnotin hj
      simp [nextIndex, hne]
    · simp [nextIndex]
  · intro j hj
    rcases List.mem_cons.mp hj with rfl | hm
    · exact hi
    · exact h.lt j hm
  · intro j hj hnot
    have hne : j ≠ i := by
      rintro rfl
      exact hnot List.mem_cons_self
    simp only [Function.update_of_ne hne]
    exact h.recorded j hj fun hm => hnot (List.mem_cons_of_mem _ hm)

end Slab

end ConduitRuntime.Memory
