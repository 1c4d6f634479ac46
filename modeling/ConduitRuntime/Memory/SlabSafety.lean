import ConduitRuntime.Memory.SlabView

/-! `slab_allocator` under contention. Every access either leaves the view as a pool alone or is one
step of the pool, so the chain, the owners and the account of every slot come from there; the
recorded indices and the owners' objects are the slab's own. -/
namespace ConduitRuntime.Memory
open Execution LinkChain Placement TaggedWord
set_option autoImplicit false

section Safety
variable {τ π : Type} [DecidableEq τ] {n : ℕ} {s u : SlabSystem τ π} {l : List ℕ}

/-! ## Steps -/

/-- What one access does: nothing the pool can see, or one step of the pool; the objects keep their
indices. -/
structure Follows (s u : SlabSystem τ π) (e : SlabEvent τ) : Prop where
  view : (u.view = s.view ∧ e.view = .silent) ∨
    ∃ b, HandoverFresh s.view b ∧ handoverStep s.view b = some (u.view, e.view)
  objects : ObjectsOk u

theorem Follows.quiet {e : SlabEvent τ} (hview : u.view = s.view) (he : e.view = .silent)
    (hu : ObjectsOk u) : Follows s u e :=
  ⟨.inl ⟨hview, he⟩, hu⟩

/-- An access of `t` that is the pool's next access of `t`. -/
theorem Follows.thread {t : τ} {b : Bool} {e : SlabEvent τ} (hfresh : SlabFresh s (.step t b))
    (hstep : threadStep s.view t b = some (u.view, e.view)) (hu : ObjectsOk u) :
    Follows s u e := by
  refine ⟨.inr ⟨.pool (.step t b), ?_, hstep⟩, hu⟩
  intro seen hseen
  apply hfresh seen
  rwa [SlabSystem.view, SlabPc.casSeen_view] at hseen

theorem slabHead_view (s : SlabSystem τ π) (t : τ) (payload : π) (initial : BitVec 32)
    (hpc : (s.pc t).inHand = none) :
    ((slabHead s t payload initial).1.view, (slabHead s t payload initial).2.view) =
      makeHead s.view t := by
  have hend : (unpack s.slab.freeHead).2 = 0xFFFFFFFF#32 ↔
      index s.view.pool.freeHead = endOfList := by
    rw [index_eq_unpack]
    exact ⟨fun h => by rw [SlabSystem.view, Slab.view, h]; rfl, fun h => BitVec.eq_of_toNat_eq h⟩
  unfold slabHead makeHead
  by_cases he : (unpack s.slab.freeHead).2 = 0xFFFFFFFF#32
  · rw [if_pos he, if_pos (hend.mp he), s.view_setPc_same t .idle hpc.symm]
    rfl
  · rw [if_neg he, if_neg fun h => he (hend.mpr h),
      s.view_setPc_same t (.allocRead payload initial s.slab.freeHead s.casCount) hpc.symm]
    rfl

theorem slabHead_objects (h : ObjectsOk s) (t : τ) (payload : π) (initial : BitVec 32) :
    ObjectsOk (slabHead s t payload initial).1 := by
  unfold slabHead
  split_ifs
  · exact h.setPc_none t rfl
  · exact h.setPc_none t rfl

theorem SlabInv.slabHead (h : SlabInv n s l) {t : τ} {b : Bool} {payload : π}
    {initial : BitVec 32} (hfresh : SlabFresh s (.step t b)) (hpc : (s.pc t).inHand = none)
    (hstep : threadStep s.view t b = some (makeHead s.view t)) {e : SlabEvent τ}
    (hs : Memory.slabHead s t payload initial = (u, e)) : Follows s u e := by
  have hview := slabHead_view s t payload initial hpc
  have hobjects := slabHead_objects h.objects t payload initial
  rw [hs] at hview hobjects
  exact Follows.thread hfresh (hstep.trans (congrArg some hview.symm)) hobjects

/-- An access between two controls with nothing in hand. -/
theorem SlabInv.goOn (h : SlabInv n s l) {t : τ} {b : Bool} {pc : SlabPc π}
    (hfresh : SlabFresh s (.step t b)) (hhand : (s.pc t).inHand = none) (hpc : pc.inHand = none)
    (hstep : threadStep s.view t b = some (s.view.setPc t pc.view, .silent)) :
    Follows s (s.setPc t pc) .silent := by
  refine Follows.thread hfresh ?_ (h.objects.setPc_none t hpc)
  rw [s.view_setPc_same t pc (hpc.trans hhand.symm)]
  exact hstep

/-- `deallocate` links its slot to the head it has read. -/
theorem SlabInv.link (h : SlabInv n s l) {t : τ} {b : Bool} {i : BitVec 32} {head : BitVec 64}
    {seen : ℕ} (hpc : s.pc t = .freeWrite i head seen) (hfresh : SlabFresh s (.step t b)) :
    Follows s ((s.setSlot i.toNat { s.slab.memory i.toNat with nextFree := (unpack head).2 }).setPc
      t (.freeCas i head seen)) .silent := by
  have hview : s.view.pc t = .freeWrite i.toNat head seen := congrArg SlabPc.view hpc
  have hslot := h.objects.setSlot i.toNat
    { s.slab.memory i.toNat with nextFree := (unpack head).2 } rfl
  refine Follows.thread hfresh ?_ (hslot.setPc_none t rfl)
  have hpool : (s.setSlot i.toNat { s.slab.memory i.toNat with nextFree := (unpack head).2 }).view =
      { s.view with pool := s.view.pool.writeNext i.toNat (head &&& 0xFFFFFFFF#64) } := by
    simp only [SlabSystem.view, SlabSystem.setSlot, Slab.view_update, setWidth_unpack]
  rw [SlabSystem.view_setPc_same, hpool]
  · simp only [threadStep, hview]
    rfl
  · exact (congrArg SlabPc.inHand hpc).symm

/-- The exchange of `deallocate`. -/
theorem SlabInv.giveBack (h : SlabInv n s l) {t : τ} {i : BitVec 32} {head : BitVec 64} {seen : ℕ}
    (hpc : s.pc t = .freeCas i head seen) (hfresh : SlabFresh s (.step t false))
    (hhead : s.slab.freeHead = head) :
    Follows s ((s.swing (pack ((unpack head).1 + 1) i)).setPc t .idle) (.freed t i.toNat) := by
  have hview : s.view.pc t = .freeCas i.toNat head seen := congrArg SlabPc.view hpc
  have hobjects : ObjectsOk (s.swing (pack ((unpack head).1 + 1) i)) :=
    ⟨h.objects.apart, h.objects.owned_index, h.objects.leaving_index⟩
  refine Follows.thread hfresh ?_ (hobjects.setPc_none t rfl)
  have hwide : i.setWidth 64 = BitVec.ofNat 64 i.toNat := by
    apply BitVec.eq_of_toNat_eq
    rw [BitVec.toNat_setWidth, BitVec.toNat_ofNat]
  have hu : ((s.swing (pack ((unpack head).1 + 1) i)).setPc t .idle).view =
      freePut s.view t i.toNat head := by
    rw [SlabSystem.view_setPc_same, pack_eq_advance, hwide]
    · rfl
    · exact (congrArg SlabPc.inHand hpc).symm
  rw [hu]
  exact step_freeCas hview hhead

/-- The exchange of `allocate` takes the pool's first cell, which no thread owns. -/
theorem SlabInv.reserve (h : SlabInv n s l) {t : τ} {payload : π} {initial : BitVec 32}
    {head : BitVec 64} {next : BitVec 32} {seen : ℕ}
    (hpc : s.pc t = .allocCas payload initial head next seen)
    (hfresh : SlabFresh s (.step t false)) (hhead : s.slab.freeHead = head) :
    Follows s ((s.swing (pack ((unpack head).1 + 1) next)).setPc t
      (.construct payload initial (unpack head).2)) (.reserved t (unpack head).2.toNat) := by
  have hview : s.view.pc t = .makeCas head (next.setWidth 64) seen := congrArg SlabPc.view hpc
  have hseen : s.casCount - seen < 2 ^ 32 := hfresh seen (by rw [hpc]; rfl)
  obtain ⟨l', hl, -⟩ := h.pool.take hview hseen hhead
  have hnot : index head ∉ s.owned t := by
    intro hm
    apply h.pool.cells.notMem_of_owned (mem_view_of_owned hm)
    rw [hl]
    exact List.mem_cons_self
  rw [index_eq_unpack] at hnot
  have hfree : ObjectsOk (s.swing (pack ((unpack head).1 + 1) next)) :=
    ⟨h.objects.apart, h.objects.owned_index, h.objects.leaving_index⟩
  refine Follows.thread hfresh ?_ (hfree.setPc t ?_ ?_)
  · have hu : ((s.swing (pack ((unpack head).1 + 1) next)).setPc t
        (.construct payload initial (unpack head).2)).view =
        makeTake s.view t head (next.setWidth 64) := by
      have howned : s.owned t ∪ (some (unpack head).2.toNat).toFinset =
          insert (index head) (s.view.owned t) := by
        rw [view_owned_of_none (by rw [hpc]; rfl), index_eq_unpack]
        simp
      rw [SlabSystem.view_setPc, pack_eq_advance]
      simp only [SlabSystem.swing, SlabPc.inHand]
      rw [howned]
      rfl
    rw [hu, ← index_eq_unpack]
    exact step_makeCas hview hhead
  · intro i hi
    obtain rfl : (unpack head).2.toNat = i := Option.some.inj hi
    exact hnot
  · intro i hi
    cases hi

/-- Between the exchange and the return of `allocate`: the constructor's stores. -/
theorem SlabInv.construct (h : SlabInv n s l) {t : τ} {payload : π} {initial i : BitVec 32}
    (hpc : s.pc t = .construct payload initial i) :
    Follows s ((s.setSlot i.toNat { s.slab.memory i.toNat with
      payload := payload, internalIndex := initial }).setPc t (.record i)) .silent := by
  have hhand : (s.pc t).inHand = some i.toNat := congrArg SlabPc.inHand hpc
  apply Follows.quiet _ rfl
  · have hfree := h.objects.setSlot_of_free (i := i.toNat)
      { s.slab.memory i.toNat with payload := payload, internalIndex := initial }
      (fun v => h.inHand_not_owned hhand) ?_
    · refine hfree.setPc t (fun j hj => ?_) (fun j hj => nomatch hj)
      obtain rfl : i.toNat = j := Option.some.inj hj
      exact h.inHand_not_owned hhand
    · exact h.not_leaving hhand (congrArg SlabPc.leaving hpc)
  · rw [SlabSystem.view_setPc_quiet, SlabSystem.view_setSlot_same]
    · rfl
    · exact hhand.symm
    · exact (congrArg SlabPc.view hpc).symm

/-- `allocate` returns: the object records its own index before it has an owner. -/
theorem SlabInv.record (h : SlabInv n s l) {t : τ} {i : BitVec 32} (hpc : s.pc t = .record i) :
    Follows s ({ s.setSlot i.toNat { s.slab.memory i.toNat with internalIndex := i } with
      owned := Function.update s.owned t (insert i.toNat (s.owned t)) }.setPc t .idle)
      (.allocated t i.toNat) := by
  have hhand : (s.pc t).inHand = some i.toNat := congrArg SlabPc.inHand hpc
  have hslot := h.objects.setSlot_of_free (i := i.toNat)
    { s.slab.memory i.toNat with internalIndex := i } (fun v => h.inHand_not_owned hhand)
    (h.not_leaving hhand (congrArg SlabPc.leaving hpc))
  refine Follows.quiet ?_ rfl (hslot.own t ?_)
  · have hsame := s.view_setSlot_same i.toNat
      { s.slab.memory i.toNat with internalIndex := i } rfl
    refine (SlabSystem.view_setPc_owned_quiet _ t .idle _ ?_ ?_).trans hsame
    · rw [hsame, view_owned_of_some hhand]
      simp [SlabPc.inHand]
    · rw [hsame]
      exact (congrArg SlabPc.view hpc).symm
  · simp [SlabSystem.setSlot]

theorem SlabInv.destroy (h : SlabInv n s l) {t : τ} {ptr : ℕ} {remains : π}
    (hpc : s.pc t = .destroy ptr remains) :
    Follows s ((s.setSlot ptr { s.slab.memory ptr with payload := remains }).setPc t
      (.freeIndex ptr)) .silent := by
  have hhand : (s.pc t).inHand = some ptr := congrArg SlabPc.inHand hpc
  have hslot := h.objects.setSlot ptr { s.slab.memory ptr with payload := remains } rfl
  refine Follows.quiet ?_ rfl (hslot.setPc t (fun j hj => ?_) (fun j hj => ?_))
  · rw [SlabSystem.view_setPc_quiet, SlabSystem.view_setSlot_same]
    · rfl
    · exact hhand.symm
    · exact (congrArg SlabPc.view hpc).symm
  · exact h.objects.apart t j (hhand.trans hj)
  · exact hslot.leaving_index t j ((congrArg SlabPc.leaving hpc).trans hj)

/-- `deallocate` begins: the object is no longer its caller's. -/
theorem SlabInv.callDeallocate (h : SlabInv n s l) {t : τ} {ptr : ℕ} (hpc : s.pc t = .idle)
    (hown : ptr ∈ s.owned t) (remains : π) :
    Follows s ({ s with owned := Function.update s.owned t ((s.owned t).erase ptr) }.setPc t
      (.destroy ptr remains)) .silent := by
  have hsub : ∀ v, Function.update s.owned t ((s.owned t).erase ptr) v ⊆ s.owned v := by
    intro v
    by_cases hv : v = t
    · subst hv
      simpa using Finset.erase_subset ptr (s.owned v)
    · simp [hv]
  refine Follows.quiet ?_ rfl ((h.objects.shrink hsub).setPc t (fun j hj => ?_) (fun j hj => ?_))
  · apply s.view_setPc_owned_quiet
    · rw [view_owned_of_none (congrArg SlabPc.inHand hpc)]
      simp [SlabPc.inHand, hown]
    · exact (congrArg SlabPc.view hpc).symm
  · obtain rfl : ptr = j := Option.some.inj hj
    simp
  · obtain rfl : ptr = j := Option.some.inj hj
    exact h.objects.owned_index t ptr hown

/-- `deallocate` reads the index back: the pool's call of `free`. -/
theorem SlabInv.freeIndex (h : SlabInv n s l) {t : τ} {ptr : ℕ} (hpc : s.pc t = .freeIndex ptr) :
    Follows s (s.setPc t (.freeLoad (s.slab.memory ptr).internalIndex)) .silent := by
  have hhand : (s.pc t).inHand = some ptr := congrArg SlabPc.inHand hpc
  have hlt := Placed.lt h.pool.cells (.owned t) ptr (mem_view_of_inHand hhand)
  have hbound := h.pool.bound
  have hindex : (s.slab.memory ptr).internalIndex.toNat = ptr := by
    rw [h.objects.leaving_index t ptr (congrArg SlabPc.leaving hpc), BitVec.toNat_ofNat]
    unfold endOfList at hbound
    omega
  have hidle : s.view.pc t = .idle := congrArg SlabPc.view hpc
  refine ⟨.inr ⟨.pool (.callFree t ptr), trivial, ?_⟩, h.objects.setPc_none t rfl⟩
  have howned : (s.view.owned t).erase ptr = s.owned t := by
    rw [view_owned_of_some hhand]
    exact Finset.erase_insert (h.objects.apart t ptr hhand)
  have hmem : ptr ∈ s.view.owned t := mem_view_of_inHand hhand
  simp only [handoverStep, poolStep, hidle, hmem, if_true, howned, SlabSystem.view_setPc,
    SlabPc.inHand, SlabPc.view, hindex]
  simp [PoolSystem.setPc, SlabEvent.view]

theorem SlabInv.slabThread (h : SlabInv n s l) {t : τ} {b : Bool} {e : SlabEvent τ}
    (hfresh : SlabFresh s (.step t b)) (hs : slabThread s t b (s.pc t) = some (u, e)) :
    Follows s u e := by
  have hview : s.view.pc t = (s.pc t).view := rfl
  cases hpc : s.pc t with
  | idle =>
    rw [hpc] at hs
    cases hs
  | allocLoad payload initial =>
    rw [hpc] at hs hview
    refine h.slabHead hfresh (congrArg SlabPc.inHand hpc) ?_ (Option.some.inj hs)
    simp only [threadStep, hview, SlabPc.view]
  | allocRead payload initial head seen =>
    rw [hpc] at hs hview
    cases hs
    apply h.goOn hfresh (congrArg SlabPc.inHand hpc) rfl
    simp only [threadStep, hview, SlabPc.view, ← index_eq_unpack]
    rfl
  | allocCas payload initial head next seen =>
    rw [hpc] at hs hview
    simp only [Memory.slabThread] at hs
    split_ifs at hs with hcas
    · cases hs
      obtain rfl := hcas.1
      exact h.reserve hpc hfresh hcas.2
    · refine h.slabHead hfresh (congrArg SlabPc.inHand hpc) ?_ (Option.some.inj hs)
      simp only [threadStep, hview, SlabPc.view]
      exact if_neg hcas
  | construct payload initial i =>
    rw [hpc] at hs
    cases hs
    exact h.construct hpc
  | record i =>
    rw [hpc] at hs
    cases hs
    exact h.record hpc
  | destroy ptr remains =>
    rw [hpc] at hs
    cases hs
    exact h.destroy hpc
  | freeIndex ptr =>
    rw [hpc] at hs
    cases hs
    exact h.freeIndex hpc
  | freeLoad i =>
    rw [hpc] at hs hview
    cases hs
    apply h.goOn hfresh (congrArg SlabPc.inHand hpc) rfl
    simp only [threadStep, hview, SlabPc.view]
    rfl
  | freeWrite i head seen =>
    rw [hpc] at hs hview
    cases hs
    exact h.link hpc hfresh
  | freeCas i head seen =>
    rw [hpc] at hs hview
    simp only [Memory.slabThread] at hs
    split_ifs at hs with hcas
    · cases hs
      obtain rfl := hcas.1
      exact h.giveBack hpc hfresh hcas.2
    · cases hs
      apply h.goOn hfresh (congrArg SlabPc.inHand hpc) rfl
      simp only [threadStep, hview, SlabPc.view]
      exact if_neg hcas

theorem mem_passOwned {owned : τ → Finset ℕ} {t v w : τ} {i j : ℕ}
    (h : j ∈ passOwned owned t v i w) : j ∈ owned w ∨ w = v ∧ j = i := by
  by_cases hv : w = v <;> by_cases ht : w = t <;> simp_all [passOwned, Function.update_apply] <;>
    tauto

theorem SlabInv.pass (h : SlabInv n s l) {t : τ} (v : τ) {ptr : ℕ} (hown : ptr ∈ s.owned t) :
    Follows s { s with owned := passOwned s.owned t v ptr } .silent := by
  have hhand : ∀ w, (s.pc w).inHand ≠ some ptr := fun w hw => h.inHand_not_owned hw hown
  refine ⟨.inr ⟨.pass t v ptr, trivial, ?_⟩, ⟨?_, ?_, h.objects.leaving_index⟩⟩
  · have howned : passOwned s.view.owned t v ptr =
        fun w => passOwned s.owned t v ptr w ∪ (s.pc w).inHand.toFinset := by
      funext w
      ext j
      have hw : j ∈ (s.pc w).inHand → j ≠ ptr := by
        rintro hj rfl
        exact hhand w hj
      by_cases hv : w = v <;> by_cases ht : w = t <;>
        simp_all [passOwned, Function.update_apply, SlabSystem.view] <;> tauto
    simp only [handoverStep, mem_view_of_owned hown, if_true, howned]
    rfl
  · intro w j hw hj
    rcases mem_passOwned hj with hj | ⟨-, rfl⟩
    · exact h.objects.apart w j hw hj
    · exact hhand w hw
  · intro w j hj
    rcases mem_passOwned hj with hj | ⟨-, rfl⟩
    · exact h.objects.owned_index w j hj
    · exact h.objects.owned_index t j hown

theorem SlabInv.slabStep (h : SlabInv n s l) {a : SlabAction τ π} {e : SlabEvent τ}
    (hfresh : SlabFresh s a) (hs : slabStep s a = some (u, e)) : Follows s u e := by
  cases a with
  | callAllocate t payload initial =>
    simp only [Memory.slabStep] at hs
    split at hs
    · rename_i hpc
      cases hs
      have hidle : s.view.pc t = .idle := congrArg SlabPc.view hpc
      refine ⟨.inr ⟨.pool (.callMake t), trivial, ?_⟩, h.objects.setPc_none t rfl⟩
      rw [SlabSystem.view_setPc_same]
      · simp only [handoverStep, poolStep, hidle]
        rfl
      · exact (congrArg SlabPc.inHand hpc).symm
    · cases hs
  | callDeallocate t ptr remains =>
    cases ptr with
    | none =>
      simp only [Memory.slabStep] at hs
      split at hs
      · cases hs
        exact Follows.quiet rfl rfl h.objects
      · cases hs
    | some ptr =>
      simp only [Memory.slabStep] at hs
      split at hs
      · rename_i hpc
        split_ifs at hs with hown
        cases hs
        exact h.callDeallocate hpc hown remains
      · cases hs
  | write t ptr payload =>
    simp only [Memory.slabStep] at hs
    split_ifs at hs with hown
    cases hs
    exact Follows.quiet (s.view_setSlot_same ptr _ rfl) rfl
      (h.objects.setSlot ptr { s.slab.memory ptr with payload := payload } rfl)
  | pass t v ptr =>
    simp only [Memory.slabStep] at hs
    split_ifs at hs with hown
    cases hs
    exact h.pass v hown
  | step t b => exact h.slabThread hfresh hs

/-! ## No other thread writes an owned object -/

/-- The slot a thread's next access writes. -/
def SlabPc.writes : SlabPc π → Option ℕ
  | .construct _ _ index => some index.toNat
  | .record index => some index.toNat
  | .destroy ptr _ => some ptr
  | .freeWrite index _ _ => some index.toNat
  | _ => none

omit [DecidableEq τ] in
theorem setSlot_of_ne {i j : ℕ} (slot : Slot π) (hj : j ≠ i) :
    (s.setSlot i slot).slab.memory j = s.slab.memory j := by
  simp [SlabSystem.setSlot, hj]

theorem slabThread_memory {t : τ} {b : Bool} {e : SlabEvent τ} {j : ℕ}
    (hs : slabThread s t b (s.pc t) = some (u, e)) (hj : (s.pc t).writes ≠ some j) :
    u.slab.memory j = s.slab.memory j := by
  have hhead : ∀ payload initial, (slabHead s t payload initial).1.slab = s.slab := by
    intro payload initial
    unfold slabHead
    split_ifs <;> rfl
  cases hpc : s.pc t with
  | idle =>
    rw [hpc] at hs
    cases hs
  | allocLoad payload initial =>
    rw [hpc] at hs
    have := hhead payload initial
    rw [Option.some.inj hs] at this
    rw [this]
  | allocCas payload initial head next seen =>
    rw [hpc] at hs
    simp only [slabThread] at hs
    split_ifs at hs
    · cases hs
      rfl
    · have := hhead payload initial
      rw [Option.some.inj hs] at this
      rw [this]
  | freeCas i head seen =>
    rw [hpc] at hs
    simp only [slabThread] at hs
    split_ifs at hs
    · cases hs
      rfl
    · cases hs
      rfl
  | construct payload initial i =>
    rw [hpc] at hs hj
    cases hs
    exact setSlot_of_ne _ fun h => hj (congrArg some h.symm)
  | record i =>
    rw [hpc] at hs hj
    cases hs
    exact setSlot_of_ne _ fun h => hj (congrArg some h.symm)
  | destroy ptr remains =>
    rw [hpc] at hs hj
    cases hs
    exact setSlot_of_ne _ fun h => hj (congrArg some h.symm)
  | freeWrite i head seen =>
    rw [hpc] at hs hj
    cases hs
    exact setSlot_of_ne _ fun h => hj (congrArg some h.symm)
  | allocRead payload initial head seen =>
    rw [hpc] at hs
    cases hs
    rfl
  | freeIndex ptr =>
    rw [hpc] at hs
    cases hs
    rfl
  | freeLoad i =>
    rw [hpc] at hs
    cases hs
    rfl

omit [DecidableEq τ] in
/-- What a thread inside the allocator writes has no owner. -/
theorem SlabInv.writes_not_owned (h : SlabInv n s l) {t v : τ} {i : ℕ}
    (hw : (s.pc t).writes = some i) : i ∉ s.owned v := by
  cases hpc : s.pc t with
  | freeWrite j head seen =>
    intro hv
    rw [hpc] at hw
    have hheld : (s.view.pc t).held = some i := by
      rw [← hw]
      exact congrArg (fun pc => (SlabPc.view pc).held) hpc
    exact h.pool.cells.held_ne_of_owned (mem_view_of_owned hv) hheld
  | construct payload initial j =>
    rw [hpc] at hw
    exact h.inHand_not_owned ((congrArg SlabPc.inHand hpc).trans hw)
  | record j =>
    rw [hpc] at hw
    exact h.inHand_not_owned ((congrArg SlabPc.inHand hpc).trans hw)
  | destroy ptr remains =>
    rw [hpc] at hw
    exact h.inHand_not_owned ((congrArg SlabPc.inHand hpc).trans hw)
  | _ =>
    rw [hpc] at hw
    cases hw

theorem SlabInv.isolated (h : SlabInv n s l) {a : SlabAction τ π} {e : SlabEvent τ}
    (hs : Memory.slabStep s a = some (u, e)) {t : τ} {i : ℕ} (hown : i ∈ s.owned t)
    (hwrite : ∀ payload, a ≠ .write t i payload) : u.slab.memory i = s.slab.memory i := by
  cases a with
  | callAllocate v payload initial =>
    simp only [Memory.slabStep] at hs
    split at hs <;> cases hs
    rfl
  | callDeallocate v ptr remains =>
    cases ptr with
    | none =>
      simp only [Memory.slabStep] at hs
      split at hs <;> cases hs
      rfl
    | some ptr =>
      simp only [Memory.slabStep] at hs
      split at hs
      · split_ifs at hs
        cases hs
        rfl
      · cases hs
  | write v ptr payload =>
    simp only [Memory.slabStep] at hs
    split_ifs at hs with hv
    cases hs
    apply Function.update_of_ne
    rintro rfl
    obtain rfl := h.pool.cells.owner_unique (mem_view_of_owned hv) (mem_view_of_owned hown)
    exact hwrite payload rfl
  | pass v w ptr =>
    simp only [Memory.slabStep] at hs
    split_ifs at hs
    cases hs
    rfl
  | step v b => exact slabThread_memory hs fun hw => h.writes_not_owned hw hown

/-! ## Whole executions -/

def reservedCount (i : ℕ) (es : List (SlabEvent τ)) : ℕ :=
  es.countP fun | .reserved _ ptr => ptr == i | _ => false

def returnedCount (i : ℕ) (es : List (SlabEvent τ)) : ℕ :=
  es.countP fun | .freed _ ptr => ptr == i | _ => false

omit [DecidableEq τ] in
theorem madeCount_view (i : ℕ) (es : List (SlabEvent τ)) :
    madeCount i (es.map SlabEvent.view) = reservedCount i es := by
  unfold madeCount reservedCount
  rw [List.countP_map]
  congr 1
  funext e
  cases e <;> rfl

omit [DecidableEq τ] in
theorem freedCount_view (i : ℕ) (es : List (SlabEvent τ)) :
    freedCount i (es.map SlabEvent.view) = returnedCount i es := by
  unfold freedCount returnedCount
  rw [List.countP_map]
  congr 1
  funext e
  cases e <;> rfl

omit [DecidableEq τ] in
theorem slabInit_view {capacity : ℕ} (hcap : capacity ≤ 2 ^ 32 - 1) (memory : ℕ → Slot π) :
    (slabInit capacity memory : SlabSystem τ π).view =
      poolInit capacity fun i => (memory i).nextFree.setWidth 64 := by
  unfold SlabSystem.view slabInit poolInit
  congr 1
  unfold Slab.view Slab.init Pool.init
  congr 1
  funext i
  by_cases hi : i + 1 < capacity
  · simp only [hi, if_true]
    apply BitVec.eq_of_toNat_eq
    rw [BitVec.toNat_setWidth, BitVec.toNat_ofNat, BitVec.toNat_ofNat]
    omega
  · simp only [hi, if_false]
    split_ifs <;> rfl

theorem slab_invariant {capacity : ℕ} (hpos : 1 ≤ capacity) (hcap : capacity ≤ 2 ^ 32 - 1)
    {memory : ℕ → Slot π} {es : List (SlabEvent τ)} {s : SlabSystem τ π}
    (h : Exec Memory.slabStep SlabFresh (slabInit capacity memory) es s) :
    ∃ l, SlabInv capacity s l ∧ HandoverCount capacity (es.map SlabEvent.view) l := by
  refine h.invariant (fun es s => ∃ l, SlabInv capacity s l ∧
    HandoverCount capacity (es.map SlabEvent.view) l) ?_ ?_
  · refine ⟨List.range capacity, ⟨?_, ?_⟩, fun i hi => by simp [madeCount, freedCount, hi]⟩
    · rw [slabInit_view hcap]
      exact poolInit_inv hpos hcap _
    · refine ⟨fun t i ht => ?_, fun t i ht => ?_, fun t i ht => ?_⟩
      · cases ht
      · exact absurd ht (Finset.notMem_empty i)
      · cases ht
  · rintro es s a u e ⟨l, hi, hacc⟩ hok hs
    have hu := hi.slabStep hok hs
    rw [List.map_append]
    rcases hu.view with ⟨hview, he⟩ | ⟨b, hb, hstep⟩
    · refine ⟨l, ⟨by rw [hview]; exact hi.pool, hu.objects⟩, ?_⟩
      apply hacc.snoc hi.pool.chain.nodup hi.pool.chain.nodup
      rw [he]
      rfl
    · obtain ⟨l', hp, hmove⟩ := hi.pool.handoverStep hb hstep
      exact ⟨l', ⟨hp, hu.objects⟩, hacc.snoc hi.pool.chain.nodup hp.chain.nodup hmove⟩

/-- In every interleaving of any number of threads, which may pass objects to one another: the free
list is a chain without repetition; a slot has been reserved once more than it has come back
exactly when it is off the list; an object has one owner, is off the list and records its own
index; and no access but its owner's store changes it. -/
theorem slab_contention {capacity : ℕ} (hpos : 1 ≤ capacity) (hcap : capacity ≤ 2 ^ 32 - 1)
    (memory : ℕ → Slot π) (es : List (SlabEvent τ)) (s : SlabSystem τ π)
    (h : Exec slabStep SlabFresh (slabInit capacity memory) es s) :
    ∃ l, Chain s.slab.nextIndex endOfList (unpack s.slab.freeHead).2.toNat l ∧ l.Nodup ∧
      (∀ i ∈ l, i < capacity) ∧
      (∀ i < capacity, reservedCount i es = returnedCount i es + if i ∈ l then 0 else 1) ∧
      (∀ t i, i ∈ s.owned t → i < capacity ∧ i ∉ l ∧ (∀ v, i ∈ s.owned v → v = t) ∧
        (s.slab.memory i).internalIndex = BitVec.ofNat 32 i) ∧
      (∀ a u e t i, slabStep s a = some (u, e) → i ∈ s.owned t →
        (∀ payload, a ≠ .write t i payload) → u.slab.memory i = s.slab.memory i) := by
  obtain ⟨l, hi, hacc⟩ := slab_invariant hpos hcap h
  refine ⟨l, ?_, hi.pool.chain.nodup, fun i hm => Placed.lt hi.pool.cells .chain i hm, ?_, ?_, ?_⟩
  · have hchain := hi.pool.chain
    rw [index_eq_unpack] at hchain
    exact Slab.nextIndex_view s.slab ▸ hchain
  · intro i hlt
    rw [← madeCount_view, ← freedCount_view]
    exact hacc i hlt
  · intro t i ht
    have hv := mem_view_of_owned ht
    refine ⟨Placed.lt hi.pool.cells (.owned t) i hv, hi.pool.cells.notMem_of_owned hv,
      fun v hv' => ?_, hi.objects.owned_index t i ht⟩
    exact hi.pool.cells.owner_unique (mem_view_of_owned hv') hv
  · intro a u e t i hs hown hwrite
    exact hi.isolated hs hown hwrite

/-- One thread allocates both objects and passes the first on; the other returns it while the
first thread writes its own. -/
theorem slab_contention_two_threads :
    ∃ (es : List (SlabEvent Bool)) (s : SlabSystem Bool ℕ),
      Exec slabStep SlabFresh (slabInit 2 fun _ => ⟨0, 7#32, 0#32⟩) es s ∧ 1 ∈ s.owned true ∧
      (s.slab.memory 1).internalIndex = 1#32 ∧ returnedCount 0 es = 1 := by
  have h := exec_of_run (show run slabStep SlabFresh (slabInit 2 fun _ => ⟨0, 7#32, 0#32⟩)
    [.callAllocate true 10 9#32, .step true false, .step true false, .step true false,
      .step true false, .step true false, .pass true false 0, .callAllocate true 11 9#32,
      .callDeallocate false (some 0) 0, .step true false, .step false false, .step true false,
      .step false false, .step false false, .step true false, .step false false,
      .step true false, .step false false, .step true false, .step false false,
      .write true 1 12, .step false false] = some (_, _) from rfl)
  obtain ⟨l, -, -, -, -, hown, -⟩ := slab_contention (by decide) (by decide) _ _ _ h
  have hmem : (1 : ℕ) ∈ (insert 1 ((insert 0 ∅ : Finset ℕ).erase 0) : Finset ℕ) := by decide
  exact ⟨_, _, h, hmem, (hown true 1 hmem).2.2.2, rfl⟩

end Safety

end ConduitRuntime.Memory
