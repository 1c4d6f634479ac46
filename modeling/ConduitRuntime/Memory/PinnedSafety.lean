import ConduitRuntime.Memory.Cells
import ConduitRuntime.Memory.PinnedSteps

/-! The pinned slab under contention. The head carries no tag, so an exchange of `allocate` may
succeed although the block it took the next index from was taken, filled and put back in between.
As long as the index read is still the one the block stores, every block stays in one place; a
single exchange with a stale index already loses or duplicates a block. -/
namespace ConduitRuntime.Memory
open Execution LinkChain
set_option autoImplicit false

/-- What a thread's local copies say about the shared slab. -/
def PinnedPc.Ok (p : PinnedSlab) : PinnedPc → Prop
  | .allocRead currentHead => currentHead ≠ 0xFFFFFFFF#32
  | .allocCas currentHead _ => currentHead ≠ 0xFFFFFFFF#32
  | .freeCas block currentHead => p.memory block = currentHead
  | _ => True

section Safety
variable {τ : Type}

/-- The chain from the head ends, and every block is on it, owned, or being deallocated: exactly
one of these, by exactly one thread. -/
def Partitioned (n : ℕ) (s : PinnedSystem τ) : Prop :=
  ∃ l, Chain s.slab.nextIndex endOfList s.slab.headIndex.toNat l ∧
    Cells n l s.owned fun t => (s.pc t).held

structure PinnedInv (n : ℕ) (s : PinnedSystem τ) (l : List ℕ) : Prop where
  bound : n ≤ endOfList
  chain : Chain s.slab.nextIndex endOfList s.slab.headIndex.toNat l
  cells : Cells n l s.owned fun t => (s.pc t).held
  threads : ∀ t, (s.pc t).Ok s.slab

variable {n : ℕ} {s : PinnedSystem τ} {l : List ℕ}

theorem PinnedInv.head_mem (h : PinnedInv n s l) (hne : s.slab.headIndex ≠ 0xFFFFFFFF#32) :
    ∃ l', l = s.slab.headIndex.toNat :: l' ∧
      Chain s.slab.nextIndex endOfList (s.slab.nextIndex s.slab.headIndex.toNat) l' := by
  have hc := h.chain
  have hend : s.slab.headIndex.toNat ≠ endOfList := fun he =>
    hne ((PinnedSlab.toNat_eq_endOfList_iff _).mp he)
  generalize s.slab.headIndex.toNat = i at hc hend ⊢
  cases hc with
  | nil => exact absurd rfl hend
  | cons _ ht => exact ⟨_, rfl, ht⟩

/-! ## Changes that move no block -/

/-- A store into a block off the chain that no thread is about to link. -/
theorem PinnedInv.writeWord (h : PinnedInv n s l) {block : ℕ} (word : BitVec 32) (hnot : block ∉ l)
    (hcas : ∀ u currentHead, s.pc u ≠ .freeCas block currentHead) :
    PinnedInv n { s with slab := s.slab.writeWord block word } l where
  bound := h.bound
  chain := by
    change Chain (s.slab.writeWord block word).nextIndex _ _ _
    rw [PinnedSlab.nextIndex_writeWord]
    exact h.chain.update_of_notMem _ hnot
  cells := h.cells
  threads u := by
    have hu := h.threads u
    change (s.pc u).Ok (s.slab.writeWord block word)
    cases hpc : s.pc u with
    | freeCas block' currentHead =>
      rw [hpc] at hu
      have hne : block' ≠ block := by
        rintro rfl
        exact hcas u currentHead hpc
      change Function.update s.slab.memory block word block' = currentHead
      rw [Function.update_of_ne hne]
      exact hu
    | allocRead currentHead =>
      rw [hpc] at hu
      exact hu
    | allocCas currentHead nextHead =>
      rw [hpc] at hu
      exact hu
    | _ => trivial

/-- The counter is not part of the free list. -/
theorem PinnedInv.count (h : PinnedInv n s l) (c : BitVec 64) :
    PinnedInv n { s with slab := { s.slab with freeCount := c } } l where
  bound := h.bound
  chain := h.chain
  cells := h.cells
  threads u := by
    have hu := h.threads u
    change (s.pc u).Ok { s.slab with freeCount := c }
    cases hpc : s.pc u <;> rw [hpc] at hu <;> exact hu

variable [DecidableEq τ]

theorem PinnedInv.setPc (h : PinnedInv n s l) {t : τ} {old pc : PinnedPc} (hpc : s.pc t = old)
    (hheld : pc.held = old.held) (hok : pc.Ok s.slab) : PinnedInv n (s.setPc t pc) l where
  bound := h.bound
  chain := h.chain
  cells := by
    apply h.cells.sameHeld
    intro u
    by_cases hu : u = t
    · subst hu
      simp [PinnedSystem.setPc, hpc, hheld]
    · simp [PinnedSystem.setPc, hu]
  threads u := by
    by_cases hu : u = t
    · subst hu
      simpa [PinnedSystem.setPc] using hok
    · simpa [PinnedSystem.setPc, hu] using h.threads u

theorem PinnedInv.allocHead (h : PinnedInv n s l) {t : τ} {old : PinnedPc} (hpc : s.pc t = old)
    (hheld : old.held = none) : PinnedInv n (allocHead s t).1 l := by
  unfold Memory.allocHead
  split_ifs with he
  · exact h.setPc hpc hheld.symm trivial
  · exact h.setPc hpc hheld.symm he

/-! ## Changes that move one block -/

theorem PinnedInv.callDeallocate (h : PinnedInv n s l) {t : τ} {block : ℕ} (hpc : s.pc t = .idle)
    (hown : block ∈ s.owned t) :
    PinnedInv n ({ s with owned := Function.update s.owned t ((s.owned t).erase block) }.setPc t
      (.freeLoad block)) l where
  bound := h.bound
  chain := h.chain
  cells := by
    refine h.cells.release hown (by rw [hpc]; rfl) fun u => ?_
    by_cases hu : u = t <;> simp [PinnedSystem.setPc, hu, PinnedPc.held]
  threads u := by
    by_cases hu : u = t
    · subst hu
      simp [PinnedSystem.setPc, PinnedPc.Ok]
    · simpa [PinnedSystem.setPc, hu] using h.threads u

/-- Other threads' copies say nothing about the head. -/
theorem ok_of_memory_eq {p q : PinnedSlab} {pc : PinnedPc} (h : pc.Ok p)
    (hmem : q.memory = p.memory) : pc.Ok q := by
  cases pc with
  | freeCas block currentHead =>
    change q.memory block = currentHead
    rw [hmem]
    exact h
  | allocRead currentHead => exact h
  | allocCas currentHead nextHead => exact h
  | _ => trivial

/-- The exchange of `allocate` takes the first block of the chain, whatever the new head is. -/
theorem PinnedInv.take_cells (h : PinnedInv n s l) {t : τ} {currentHead nextHead : BitVec 32}
    (hpc : s.pc t = .allocCas currentHead nextHead) (hhead : s.slab.headIndex = currentHead) :
    ∃ l', Chain s.slab.nextIndex endOfList (s.slab.nextIndex currentHead.toNat) l' ∧
      Cells n l' (allocTake s t currentHead nextHead).owned
        fun u => ((allocTake s t currentHead nextHead).pc u).held := by
  have hne := h.threads t
  rw [hpc] at hne
  subst hhead
  obtain ⟨l', hl, hchain⟩ := h.head_mem hne
  have hcells := h.cells
  have hnodup := h.chain.nodup
  rw [hl] at hcells hnodup
  refine ⟨l', hchain, hcells.take (List.nodup_cons.mp hnodup).1 t fun u => ?_⟩
  by_cases hu : u = t
  · subst hu
    simp [allocTake, hpc, PinnedPc.held]
  · simp [allocTake, hu]

theorem PinnedInv.take (h : PinnedInv n s l) {t : τ} {currentHead nextHead : BitVec 32}
    (hpc : s.pc t = .allocCas currentHead nextHead) (hhead : s.slab.headIndex = currentHead)
    (hnext : s.slab.memory currentHead.toNat = nextHead) :
    ∃ l', PinnedInv n (allocTake s t currentHead nextHead) l' := by
  obtain ⟨l', hchain, hcells⟩ := h.take_cells hpc hhead
  refine ⟨l', h.bound, ?_, hcells, fun u => ?_⟩
  · rw [PinnedSlab.nextIndex, hnext] at hchain
    exact hchain
  · by_cases hu : u = t
    · subst hu
      simp [allocTake, PinnedPc.Ok]
    · simp only [allocTake, Function.update_of_ne hu]
      exact ok_of_memory_eq (h.threads u) rfl

/-- After the exchange the blocks are partitioned only if the new head is what the old head block
stores: the owners determine the members of the chain, and the members its head. -/
theorem PinnedInv.partitioned_take_iff (h : PinnedInv n s l) {t : τ}
    {currentHead nextHead : BitVec 32} (hpc : s.pc t = .allocCas currentHead nextHead)
    (hhead : s.slab.headIndex = currentHead) :
    Partitioned n (allocTake s t currentHead nextHead) ↔
      s.slab.memory currentHead.toNat = nextHead := by
  constructor
  · rintro ⟨l₂, hchain₂, hcells₂⟩
    obtain ⟨l', hchain, hcells⟩ := h.take_cells hpc hhead
    have heq : s.slab.nextIndex currentHead.toNat = nextHead.toNat :=
      hchain.head_eq hchain₂ fun i => hcells.mem_iff hcells₂ i
    exact BitVec.eq_of_toNat_eq heq
  · intro hnext
    obtain ⟨l', hinv⟩ := h.take hpc hhead hnext
    exact ⟨l', hinv.chain, hinv.cells⟩

theorem PinnedInv.link (h : PinnedInv n s l) {t : τ} {block : ℕ} {currentHead : BitVec 32}
    (hpc : s.pc t = .freeCas block currentHead) (hhead : s.slab.headIndex = currentHead) :
    PinnedInv n (freeLink s t block) (block :: l) := by
  have hu := h.threads t
  rw [hpc] at hu
  have hb := h.bound
  have hheld : (s.pc t).held = some block := by
    rw [hpc]
    rfl
  have hlt : block < n := Placement.Placed.lt h.cells (.held t) block hheld
  have hidx : (BitVec.ofNat 32 block).toNat = block := by
    rw [BitVec.toNat_ofNat]
    unfold endOfList at hb
    omega
  refine ⟨h.bound, ?_, ?_, fun u => ?_⟩
  · change Chain s.slab.nextIndex _ (BitVec.ofNat 32 block).toNat _
    rw [hidx]
    apply h.chain.push (by omega)
    rw [PinnedSlab.nextIndex, hu, hhead]
  · refine h.cells.put hheld fun u => ?_
    by_cases hut : u = t <;> simp [freeLink, hut, PinnedPc.held]
  · by_cases hut : u = t
    · subst hut
      simp [freeLink, PinnedPc.Ok]
    · simp only [freeLink, Function.update_of_ne hut]
      exact ok_of_memory_eq (h.threads u) rfl

/-! ## Steps and executions -/

theorem PinnedInv.threadStep (h : PinnedInv n s l) {t : τ} {b : Bool} {u : PinnedSystem τ}
    {e : PinnedEvent τ} (hok : NextCurrent s (.step t b)) (hs : s.threadStep t b = some (u, e)) :
    ∃ l', PinnedInv n u l' := by
  have hthread := h.threads t
  unfold PinnedSystem.threadStep at hs
  split at hs
  · cases hs
  · rename_i hpc
    have hm := h.allocHead hpc rfl
    rw [Option.some.inj hs] at hm
    exact ⟨l, hm⟩
  · rename_i currentHead hpc
    rw [hpc] at hthread
    cases hs
    exact ⟨l, h.setPc hpc rfl hthread⟩
  · rename_i currentHead nextHead hpc
    split_ifs at hs with hcas
    · cases hs
      obtain ⟨rfl, hhead⟩ := hcas
      exact h.take hpc hhead (hok (currentHead, nextHead) (by rw [hpc]; rfl) hhead)
    · have hm := h.allocHead hpc rfl
      rw [Option.some.inj hs] at hm
      exact ⟨l, hm⟩
  · rename_i block hpc
    cases hs
    exact ⟨l, (h.count _).setPc hpc rfl trivial⟩
  · rename_i block hpc
    cases hs
    exact ⟨l, h.setPc hpc rfl trivial⟩
  · rename_i block currentHead hpc
    cases hs
    have hheld : (s.pc t).held = some block := by
      rw [hpc]
      rfl
    have hw := h.writeWord currentHead (h.cells.notMem_of_held hheld) (by
      intro v head' hv
      obtain rfl : t = v := h.cells.holder_unique hheld (by rw [hv]; rfl)
      rw [hpc] at hv
      cases hv)
    refine ⟨l, hw.setPc hpc rfl ?_⟩
    exact Function.update_self ..
  · rename_i block currentHead hpc
    split_ifs at hs with hcas
    · cases hs
      exact ⟨_, h.link hpc hcas.2⟩
    · cases hs
      exact ⟨l, h.setPc hpc rfl trivial⟩
  · rename_i hpc
    cases hs
    exact ⟨l, (h.count _).setPc hpc rfl trivial⟩

theorem PinnedInv.pinnedStep (h : PinnedInv n s l) {a : PinnedAction τ} {u : PinnedSystem τ}
    {e : PinnedEvent τ} (hok : NextCurrent s a) (hs : pinnedStep s a = some (u, e)) :
    ∃ l', PinnedInv n u l' := by
  cases a with
  | callAllocate t =>
    simp only [Memory.pinnedStep] at hs
    split_ifs at hs with hpc
    cases hs
    exact ⟨l, h.setPc hpc rfl trivial⟩
  | callDeallocate t block =>
    simp only [Memory.pinnedStep] at hs
    split_ifs at hs with hcall
    cases hs
    exact ⟨l, h.callDeallocate hcall.1 hcall.2⟩
  | write t block word =>
    simp only [Memory.pinnedStep] at hs
    split_ifs at hs with hown
    cases hs
    refine ⟨l, h.writeWord word (h.cells.notMem_of_owned hown) ?_⟩
    intro v currentHead hv
    exact h.cells.held_ne_of_owned hown (u := v) (by rw [hv]; rfl)
  | step t b => exact h.threadStep hok hs

theorem pinned_invariant {poolSize : ℕ} (hpos : 1 ≤ poolSize) (hsize : poolSize ≤ 2 ^ 32 - 1)
    {memory : ℕ → BitVec 32} {es : List (PinnedEvent τ)} {s : PinnedSystem τ}
    (h : Exec pinnedStep NextCurrent (pinnedInit poolSize memory) es s) :
    ∃ l, PinnedInv poolSize s l := by
  refine h.invariant (fun _ s => ∃ l, PinnedInv poolSize s l) ?_ ?_
  · have hfree := PinnedSlab.init_freeList hpos hsize memory
    refine ⟨List.range poolSize, ?_, hfree.1, cells_range poolSize, fun _ => trivial⟩
    unfold endOfList
    omega
  · rintro _ s a t e ⟨l, hi⟩ hok hs
    exact hi.pinnedStep hok hs

/-- In every interleaving of any number of threads whose steps meet `NextCurrent`: the chain from
the head ends below the pool size, no block has two owners or is owned on the chain, and none is
lost. The condition is exact: an exchange of `allocate` that is about to succeed in such a state
keeps every block in one place if and only if it meets it. -/
theorem pinned_contention {poolSize : ℕ} (hpos : 1 ≤ poolSize) (hsize : poolSize ≤ 2 ^ 32 - 1)
    (memory : ℕ → BitVec 32) (es : List (PinnedEvent τ)) (s : PinnedSystem τ)
    (h : Exec pinnedStep NextCurrent (pinnedInit poolSize memory) es s) :
    (∃ l, Chain s.slab.nextIndex endOfList s.slab.headIndex.toNat l ∧
      (∀ i ∈ l, i < poolSize) ∧
      (∀ t u i, i ∈ s.owned t → i ∈ s.owned u → t = u) ∧
      (∀ t i, i ∈ s.owned t → i ∉ l) ∧
      ∀ i < poolSize, i ∈ l ∨ (∃ t, i ∈ s.owned t) ∨ ∃ t, (s.pc t).held = some i) ∧
    ∀ t currentHead nextHead, s.pc t = .allocCas currentHead nextHead →
      s.slab.headIndex = currentHead →
      (Partitioned poolSize (allocTake s t currentHead nextHead) ↔
        s.slab.memory currentHead.toNat = nextHead) := by
  obtain ⟨l, hi⟩ := pinned_invariant hpos hsize h
  refine ⟨⟨l, hi.chain, ?_, ?_, ?_, ?_⟩, ?_⟩
  · intro i hm
    exact Placement.Placed.lt hi.cells .chain i hm
  · intro t u i ht hu
    exact hi.cells.owner_unique ht hu
  · intro t i ht
    exact hi.cells.notMem_of_owned ht
  · intro i hlt
    exact hi.cells.cases hlt
  · intro t currentHead nextHead hpc hhead
    exact hi.partitioned_take_iff hpc hhead

/-- Two threads race for the first of two blocks; the loser retries and takes the second. -/
theorem pinned_contention_two_threads :
    ∃ (es : List (PinnedEvent Bool)) (s : PinnedSystem Bool),
      Exec pinnedStep NextCurrent (pinnedInit 2 fun _ => 0#32) es s ∧ 0 ∈ s.owned true ∧
      ∃ l, Chain s.slab.nextIndex endOfList s.slab.headIndex.toNat l ∧ 0 ∉ l := by
  have h := exec_of_run (show run pinnedStep NextCurrent (pinnedInit 2 fun _ => 0#32)
    [.callAllocate true, .callAllocate false, .step true false, .step false false,
      .step false false, .step true false, .step true false, .step true false, .write true 0 5#32,
      .step false false, .step false false, .step false false, .step false false] =
      some (_, _) from rfl)
  have hown : (0 : ℕ) ∈ (insert 0 ∅ : Finset ℕ) := by decide
  obtain ⟨⟨l, hc, -, -, hnot, -⟩, -⟩ := pinned_contention (by decide) (by decide) _ _ _ h
  exact ⟨_, _, h, hown, l, hc, hnot true 0 hown⟩

/-- Thread `true` reads head 0 and next 1 and pauses; thread `false` allocates both blocks and
deallocates block 0. The exchange of `true` succeeds and puts block 1, owned by `false`, at the
head, and the next `allocate` hands it out a second time. -/
theorem stale_next_double_ownership :
    ∃ (es : List (PinnedEvent Bool)) (s : PinnedSystem Bool),
      Exec pinnedStep (fun _ _ => True) (pinnedInit 2 fun _ => 0#32) es s ∧
      1 ∈ s.owned true ∧ 1 ∈ s.owned false := by
  have h := exec_of_run (show run pinnedStep (fun _ _ => True) (pinnedInit 2 fun _ => 0#32)
    [.callAllocate true, .step true false, .step true false,
      .callAllocate false, .step false false, .step false false, .step false false,
      .step false false,
      .callAllocate false, .step false false, .step false false, .step false false,
      .step false false,
      .callDeallocate false 0, .step false false, .step false false, .step false false,
      .step false false,
      .step true false, .step true false,
      .callAllocate true, .step true false, .step true false, .step true false] =
      some (_, _) from rfl)
  have htrue : (1 : ℕ) ∈ (insert 1 (insert 0 ∅) : Finset ℕ) := by decide
  have hfalse : (1 : ℕ) ∈ (insert 1 (insert 0 ∅) : Finset ℕ).erase 0 := by decide
  exact ⟨_, _, h, htrue, hfalse⟩

end Safety

end ConduitRuntime.Memory
