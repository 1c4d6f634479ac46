import ConduitRuntime.Memory.SlabSteps

/-! A slab seen as a pool, through its `next_free` fields and its head. What the pool does not have
is the index an object records of itself, on which `deallocate` relies: it is right for every
object that has an owner or whose `deallocate` has not read it yet. -/
namespace ConduitRuntime.Memory
open Execution LinkChain TaggedWord
set_option autoImplicit false

/-! ## The packed head -/

theorem index_setWidth (i : BitVec 32) : index (i.setWidth 64) = i.toNat := by
  have hi := i.isLt
  rw [index_eq, BitVec.toNat_setWidth]
  omega

/-- The slab's new head is the pool's. -/
theorem pack_eq_advance (head : BitVec 64) (low : BitVec 32) :
    pack ((unpack head).1 + 1) low = advance head (low.setWidth 64) := by
  apply BitVec.eq_of_toNat_eq
  rw [pack_toNat, advance_toNat, index_setWidth, BitVec.toNat_add, tag_eq_unpack]
  rfl

theorem setWidth_unpack (head : BitVec 64) :
    (unpack head).2.setWidth 64 = head &&& 0xFFFFFFFF#64 := by
  apply BitVec.eq_of_toNat_eq
  have h := (unpack head).2.isLt
  rw [BitVec.toNat_setWidth, ← index_eq_unpack]
  have h' := index_lt head
  change index head % 2 ^ 64 = index head
  omega

/-! ## The view of a slab as a pool -/

section View
variable {τ π : Type}

def Slab.view (s : Slab π) : Pool where
  memory i := (s.memory i).nextFree.setWidth 64
  freeHead := s.freeHead

/-- The slot of an object that is being built or torn down; the pool counts it as its thread's. -/
def SlabPc.inHand : SlabPc π → Option ℕ
  | .construct _ _ index => some index.toNat
  | .record index => some index.toNat
  | .destroy ptr _ => some ptr
  | .freeIndex ptr => some ptr
  | _ => none

/-- The object whose recorded index `deallocate` is about to read. -/
def SlabPc.leaving : SlabPc π → Option ℕ
  | .destroy ptr _ => some ptr
  | .freeIndex ptr => some ptr
  | _ => none

def SlabPc.view : SlabPc π → PoolPc
  | .allocLoad _ _ => .makeLoad
  | .allocRead _ _ head seen => .makeRead head seen
  | .allocCas _ _ head next seen => .makeCas head (next.setWidth 64) seen
  | .freeLoad index => .freeLoad index.toNat
  | .freeWrite index head seen => .freeWrite index.toNat head seen
  | .freeCas index head seen => .freeCas index.toNat head seen
  | _ => .idle

def SlabEvent.view : SlabEvent τ → PoolEvent τ
  | .reserved t ptr => .made t ptr
  | .exhausted t => .exhausted t
  | .freed t ptr => .freed t ptr
  | .silent => .silent
  | .allocated _ _ => .silent

def SlabSystem.view (s : SlabSystem τ π) : PoolSystem τ where
  pool := s.slab.view
  pc t := (s.pc t).view
  owned t := s.owned t ∪ (s.pc t).inHand.toFinset
  casCount := s.casCount

theorem Slab.nextIndex_view (s : Slab π) : s.view.nextIndex = s.nextIndex := by
  funext i
  exact index_setWidth _

/-- A store into a slot is seen only through `next_free`. -/
theorem Slab.view_update (s : Slab π) (i : ℕ) (slot : Slot π) :
    Slab.view { s with memory := Function.update s.memory i slot } =
      s.view.writeNext i (slot.nextFree.setWidth 64) := by
  unfold Slab.view Pool.writeNext
  congr 1
  funext j
  by_cases hj : j = i
  · subst hj
    simp
  · simp [hj]

theorem Slab.view_update_same (s : Slab π) (i : ℕ) (slot : Slot π)
    (h : slot.nextFree = (s.memory i).nextFree) :
    Slab.view { s with memory := Function.update s.memory i slot } = s.view := by
  rw [Slab.view_update, h]
  unfold Pool.writeNext
  congr 1
  exact Function.update_eq_self i s.view.memory

theorem SlabSystem.view_setSlot_same (s : SlabSystem τ π) (i : ℕ) (slot : Slot π)
    (h : slot.nextFree = (s.slab.memory i).nextFree) : (s.setSlot i slot).view = s.view := by
  unfold SlabSystem.view SlabSystem.setSlot
  rw [Slab.view_update_same s.slab i slot h]

theorem SlabPc.casSeen_view (pc : SlabPc π) : pc.view.casSeen = pc.casSeen := by
  cases pc <;> rfl

variable [DecidableEq τ]

/-- What a thread's new control and new slots change in the view. -/
theorem SlabSystem.view_setPc_owned (s : SlabSystem τ π) (t : τ) (pc : SlabPc π) (o : Finset ℕ) :
    ({ s with owned := Function.update s.owned t o }.setPc t pc).view = { s.view with
      pc := Function.update s.view.pc t pc.view
      owned := Function.update s.view.owned t (o ∪ pc.inHand.toFinset) } := by
  unfold SlabSystem.view SlabSystem.setPc
  congr 1
  · funext v
    by_cases hv : v = t
    · subst hv
      simp
    · simp [hv]
  · funext v
    by_cases hv : v = t
    · subst hv
      simp
    · simp [hv]

theorem SlabSystem.view_setPc (s : SlabSystem τ π) (t : τ) (pc : SlabPc π) :
    (s.setPc t pc).view = { s.view with
      pc := Function.update s.view.pc t pc.view
      owned := Function.update s.view.owned t (s.owned t ∪ pc.inHand.toFinset) } := by
  rw [← s.view_setPc_owned, Function.update_eq_self]

/-- A slot goes between a thread's hand and its own, and the pool sees no difference. -/
theorem SlabSystem.view_setPc_owned_quiet (s : SlabSystem τ π) (t : τ) (pc : SlabPc π)
    (o : Finset ℕ) (howned : o ∪ pc.inHand.toFinset = s.view.owned t)
    (hview : pc.view = s.view.pc t) :
    ({ s with owned := Function.update s.owned t o }.setPc t pc).view = s.view := by
  rw [s.view_setPc_owned, howned, hview, Function.update_eq_self, Function.update_eq_self]

/-- The same while the thread has nothing in hand, or the same as before. -/
theorem SlabSystem.view_setPc_same (s : SlabSystem τ π) (t : τ) (pc : SlabPc π)
    (h : pc.inHand = (s.pc t).inHand) : (s.setPc t pc).view = s.view.setPc t pc.view := by
  have howned : s.owned t ∪ pc.inHand.toFinset = s.view.owned t := by
    rw [h]
    rfl
  rw [s.view_setPc, howned, Function.update_eq_self]
  rfl

/-- A thread goes on with what it had in hand, and the pool sees no difference. -/
theorem SlabSystem.view_setPc_quiet (s : SlabSystem τ π) (t : τ) (pc : SlabPc π)
    (h : pc.inHand = (s.pc t).inHand) (hview : pc.view = (s.pc t).view) :
    (s.setPc t pc).view = s.view := by
  have hpc : (s.pc t).view = s.view.pc t := rfl
  rw [s.view_setPc_same t pc h, hview, hpc]
  unfold PoolSystem.setPc
  rw [Function.update_eq_self]

end View

/-! ## What the pool does not see -/

section Safety
variable {τ π : Type}

/-- No thread owns what it has in hand; objects with an owner, and those whose `deallocate` has not
read it yet, record the index of their own slot. -/
structure ObjectsOk (s : SlabSystem τ π) : Prop where
  apart : ∀ t i, (s.pc t).inHand = some i → i ∉ s.owned t
  owned_index : ∀ t i, i ∈ s.owned t → (s.slab.memory i).internalIndex = BitVec.ofNat 32 i
  leaving_index : ∀ t i, (s.pc t).leaving = some i →
    (s.slab.memory i).internalIndex = BitVec.ofNat 32 i

structure SlabInv (n : ℕ) (s : SlabSystem τ π) (l : List ℕ) : Prop where
  pool : PoolInv n s.view l
  objects : ObjectsOk s

variable {n : ℕ} {s u : SlabSystem τ π} {l : List ℕ}

theorem mem_view_of_owned {t : τ} {i : ℕ} (h : i ∈ s.owned t) : i ∈ s.view.owned t :=
  Finset.mem_union_left _ h

theorem mem_view_of_inHand {t : τ} {i : ℕ} (h : (s.pc t).inHand = some i) :
    i ∈ s.view.owned t := by
  apply Finset.mem_union_right
  rw [h]
  exact Option.mem_toFinset.mpr rfl

/-- A slot in a thread's hand has no owner, and no other thread has it. -/
theorem SlabInv.inHand_not_owned (h : SlabInv n s l) {t v : τ} {i : ℕ}
    (ht : (s.pc t).inHand = some i) : i ∉ s.owned v := by
  intro hv
  obtain rfl := h.pool.cells.owner_unique (mem_view_of_inHand ht) (mem_view_of_owned hv)
  exact h.objects.apart t i ht hv

theorem SlabPc.inHand_of_leaving {pc : SlabPc π} {i : ℕ} (h : pc.leaving = some i) :
    pc.inHand = some i := by
  cases pc <;> first | exact h | cases h

theorem SlabInv.not_leaving (h : SlabInv n s l) {t : τ} {i : ℕ} (ht : (s.pc t).inHand = some i)
    (hleave : (s.pc t).leaving = none) (v : τ) : (s.pc v).leaving ≠ some i := by
  intro hv
  have hv' := mem_view_of_inHand (SlabPc.inHand_of_leaving hv)
  obtain rfl := h.pool.cells.owner_unique hv' (mem_view_of_inHand ht)
  rw [hleave] at hv
  cases hv

theorem view_owned_of_none {t : τ} (h : (s.pc t).inHand = none) : s.view.owned t = s.owned t := by
  change s.owned t ∪ (s.pc t).inHand.toFinset = _
  rw [h]
  simp

theorem view_owned_of_some {t : τ} {i : ℕ} (h : (s.pc t).inHand = some i) :
    s.view.owned t = insert i (s.owned t) := by
  change s.owned t ∪ (s.pc t).inHand.toFinset = _
  rw [h]
  simp

/-- A store into a slot that leaves its recorded index alone. -/
theorem ObjectsOk.setSlot (h : ObjectsOk s) (i : ℕ) (slot : Slot π)
    (hslot : slot.internalIndex = (s.slab.memory i).internalIndex) :
    ObjectsOk (s.setSlot i slot) := by
  have hsame : ∀ j, ((s.setSlot i slot).slab.memory j).internalIndex =
      (s.slab.memory j).internalIndex := by
    intro j
    by_cases hj : j = i
    · subst hj
      simpa [SlabSystem.setSlot] using hslot
    · simp [SlabSystem.setSlot, hj]
  refine ⟨h.apart, fun v j hv => ?_, fun v j hv => ?_⟩
  · rw [hsame]
    exact h.owned_index v j hv
  · rw [hsame]
    exact h.leaving_index v j hv

/-- A store into a slot that has no owner and whose object no thread is about to return. -/
theorem ObjectsOk.setSlot_of_free (h : ObjectsOk s) {i : ℕ} (slot : Slot π)
    (howned : ∀ v, i ∉ s.owned v) (hleave : ∀ v, (s.pc v).leaving ≠ some i) :
    ObjectsOk (s.setSlot i slot) := by
  refine ⟨h.apart, fun v j hv => ?_, fun v j hv => ?_⟩
  · have hj : j ≠ i := by
      rintro rfl
      exact howned v hv
    simpa [SlabSystem.setSlot, hj] using h.owned_index v j hv
  · have hj : j ≠ i := by
      rintro rfl
      exact hleave v hv
    simpa [SlabSystem.setSlot, hj] using h.leaving_index v j hv

theorem ObjectsOk.shrink (h : ObjectsOk s) {owned : τ → Finset ℕ}
    (hsub : ∀ v, owned v ⊆ s.owned v) : ObjectsOk { s with owned := owned } :=
  ⟨fun v i hv hi => h.apart v i hv (hsub v hi), fun v i hi => h.owned_index v i (hsub v hi),
    h.leaving_index⟩

variable [DecidableEq τ]

theorem slab_setPc_of_ne {t v : τ} (hv : v ≠ t) (pc : SlabPc π) :
    (s.setPc t pc).pc v = s.pc v := by
  simp [SlabSystem.setPc, hv]

/-- A thread goes on with `pc`. -/
theorem ObjectsOk.setPc (h : ObjectsOk s) (t : τ) {pc : SlabPc π}
    (hapart : ∀ i, pc.inHand = some i → i ∉ s.owned t)
    (hleave : ∀ i, pc.leaving = some i →
      (s.slab.memory i).internalIndex = BitVec.ofNat 32 i) : ObjectsOk (s.setPc t pc) := by
  refine ⟨fun v i hv => ?_, h.owned_index, fun v i hv => ?_⟩
  · by_cases ht : v = t
    · subst ht
      rw [slab_setPc_self] at hv
      exact hapart i hv
    · rw [slab_setPc_of_ne ht] at hv
      exact h.apart v i hv
  · by_cases ht : v = t
    · subst ht
      rw [slab_setPc_self] at hv
      exact hleave i hv
    · rw [slab_setPc_of_ne ht] at hv
      exact h.leaving_index v i hv

theorem ObjectsOk.setPc_none (h : ObjectsOk s) (t : τ) {pc : SlabPc π} (hpc : pc.inHand = none) :
    ObjectsOk (s.setPc t pc) := by
  refine h.setPc t (fun i hi => ?_) (fun i hi => ?_)
  · rw [hpc] at hi
    cases hi
  · rw [SlabPc.inHand_of_leaving hi] at hpc
    cases hpc

/-- A thread becomes the owner of a slot whose object records its index, and is idle. -/
theorem ObjectsOk.own (h : ObjectsOk s) (t : τ) {i : ℕ}
    (hi : (s.slab.memory i).internalIndex = BitVec.ofNat 32 i) :
    ObjectsOk ({ s with owned := Function.update s.owned t (insert i (s.owned t)) }.setPc t
      .idle) := by
  refine ⟨fun v j hv => ?_, fun v j hv => ?_, fun v j hv => ?_⟩
  · by_cases ht : v = t
    · subst ht
      rw [slab_setPc_self] at hv
      cases hv
    · rw [slab_setPc_of_ne ht] at hv
      simpa [SlabSystem.setPc, ht] using h.apart v j hv
  · by_cases ht : v = t
    · subst ht
      have hj : j = i ∨ j ∈ s.owned v := by simpa [SlabSystem.setPc] using hv
      rcases hj with rfl | hj
      · exact hi
      · exact h.owned_index v j hj
    · exact h.owned_index v j (by simpa [SlabSystem.setPc, ht] using hv)
  · by_cases ht : v = t
    · subst ht
      rw [slab_setPc_self] at hv
      cases hv
    · rw [slab_setPc_of_ne ht] at hv
      exact h.leaving_index v j hv

end Safety

end ConduitRuntime.Memory
