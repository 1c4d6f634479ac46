import ConduitRuntime.Memory.Cells
import ConduitRuntime.Memory.PoolSteps

/-! The pool under contention. The invariant places every cell: on the chain, with one owner, or
with one thread inside `free`. A thread's copy of the head is current exactly as long as the
ghost count has not moved since; a stale copy has a stale tag, so its exchange fails. A read of
`next` out of a cell another thread has already taken therefore never reaches the head. -/
namespace ConduitRuntime.Memory
open Execution LinkChain Placement TaggedWord
set_option autoImplicit false

/-- A copy of the head taken when `seen` exchanges had succeeded. -/
structure HeadOk (n : ℕ) (p : Pool) (count : ℕ) (head : BitVec 64) (seen : ℕ) : Prop where
  seen_le : seen ≤ count
  index_lt : index head < n
  tag_eq : tag head = seen % 2 ^ 32
  current : seen = count → p.freeHead = head

/-- What a thread's local copies say about the shared pool. -/
def ThreadOk (n : ℕ) (p : Pool) (count : ℕ) : PoolPc → Prop
  | .makeRead head seen => HeadOk n p count head seen
  | .makeCas head next seen =>
    HeadOk n p count head seen ∧ (seen = count → p.memory (index head) = next)
  | .freeCas idx head _ => p.nextIndex idx = index head
  | _ => True

section Safety
variable {τ : Type}

structure PoolInv (n : ℕ) (s : PoolSystem τ) (l : List ℕ) : Prop where
  bound : n ≤ endOfList
  chain : Chain s.pool.nextIndex endOfList (index s.pool.freeHead) l
  tag_eq : tag s.pool.freeHead = s.casCount % 2 ^ 32
  cells : Cells n l s.owned fun t => (s.pc t).held
  threads : ∀ t, ThreadOk n s.pool s.casCount (s.pc t)

variable {n : ℕ} {s : PoolSystem τ} {l : List ℕ}

theorem PoolInv.head_mem (h : PoolInv n s l) (hne : index s.pool.freeHead ≠ endOfList) :
    ∃ l', l = index s.pool.freeHead :: l' ∧
      Chain s.pool.nextIndex endOfList (s.pool.nextIndex (index s.pool.freeHead)) l' := by
  have hc := h.chain
  generalize index s.pool.freeHead = i at hc hne ⊢
  cases hc with
  | nil => exact absurd rfl hne
  | cons _ ht => exact ⟨_, rfl, ht⟩

/-- The current head is a good copy of itself. -/
theorem PoolInv.headOk (h : PoolInv n s l) (hne : index s.pool.freeHead ≠ endOfList) :
    HeadOk n s.pool s.casCount s.pool.freeHead s.casCount := by
  obtain ⟨l', rfl, _⟩ := h.head_mem hne
  exact ⟨le_refl _, Placed.lt h.cells .chain _ (List.mem_cons_self ..), h.tag_eq, fun _ => rfl⟩

/-! ## Changes that move no cell -/

/-- A store into a cell off the chain that no thread is about to put back. -/
theorem PoolInv.writeNext (h : PoolInv n s l) {j : ℕ} (word : BitVec 64) (hj : j ∉ l)
    (hcas : ∀ u head seen, s.pc u ≠ .freeCas j head seen) :
    PoolInv n { s with pool := s.pool.writeNext j word } l where
  bound := h.bound
  chain := by
    change Chain (s.pool.writeNext j word).nextIndex _ _ _
    rw [Pool.nextIndex_writeNext]
    exact h.chain.update_of_notMem _ hj
  tag_eq := h.tag_eq
  cells := h.cells
  threads u := by
    have hu := h.threads u
    change ThreadOk n (s.pool.writeNext j word) s.casCount (s.pc u)
    cases hpc : s.pc u with
    | idle => trivial
    | makeLoad => trivial
    | freeLoad idx => trivial
    | freeWrite idx head seen => trivial
    | makeRead head seen =>
      rw [hpc] at hu
      exact ⟨hu.seen_le, hu.index_lt, hu.tag_eq, hu.current⟩
    | makeCas head next seen =>
      rw [hpc] at hu
      obtain ⟨hok, hnext⟩ := hu
      refine ⟨⟨hok.seen_le, hok.index_lt, hok.tag_eq, hok.current⟩, fun hs => ?_⟩
      -- the copy is current, so the cell it names is the first of the chain
      have hhead := hok.current hs
      have hlt := hok.index_lt
      have hb := h.bound
      obtain ⟨l', hl, _⟩ := h.head_mem (by rw [hhead]; omega)
      have hne : index head ≠ j := by
        rintro rfl
        rw [hl, hhead] at hj
        exact hj (List.mem_cons_self ..)
      simpa [Pool.writeNext, hne] using hnext hs
    | freeCas idx head seen =>
      rw [hpc] at hu
      have hne : idx ≠ j := by
        rintro rfl
        exact hcas u head seen hpc
      change (s.pool.writeNext j word).nextIndex idx = _
      rw [Pool.nextIndex_writeNext, Function.update_of_ne hne]
      exact hu

variable [DecidableEq τ]

theorem PoolInv.setPc (h : PoolInv n s l) {t : τ} {old pc : PoolPc} (hpc : s.pc t = old)
    (hheld : pc.held = old.held) (hok : ThreadOk n s.pool s.casCount pc) :
    PoolInv n (s.setPc t pc) l where
  bound := h.bound
  chain := h.chain
  tag_eq := h.tag_eq
  cells := by
    apply h.cells.sameHeld
    intro u
    by_cases hu : u = t
    · subst hu
      simp [PoolSystem.setPc, hpc, hheld]
    · simp [PoolSystem.setPc, hu]
  threads u := by
    by_cases hu : u = t
    · subst hu
      simpa [PoolSystem.setPc] using hok
    · simpa [PoolSystem.setPc, hu] using h.threads u

theorem PoolInv.makeHead (h : PoolInv n s l) {t : τ} {old : PoolPc} (hpc : s.pc t = old)
    (hheld : old.held = none) : PoolInv n (makeHead s t).1 l := by
  unfold Memory.makeHead
  split_ifs with he
  · exact h.setPc hpc hheld.symm trivial
  · exact h.setPc hpc hheld.symm (h.headOk he)

/-! ## Changes that move one cell -/

/-- After a successful exchange no other thread's copy is current. -/
theorem threadOk_succ {p q : Pool} {count : ℕ} {pc : PoolPc} (h : ThreadOk n p count pc)
    (hmem : q.memory = p.memory) : ThreadOk n q (count + 1) pc := by
  cases pc with
  | makeRead head seen =>
    exact ⟨h.seen_le.trans (Nat.le_succ _), h.index_lt, h.tag_eq,
      fun hs => absurd h.seen_le (by omega)⟩
  | makeCas head next seen =>
    have hle := h.1.seen_le
    exact ⟨⟨hle.trans (Nat.le_succ _), h.1.index_lt, h.1.tag_eq, fun hs => absurd hle (by omega)⟩,
      fun hs => absurd hle (by omega)⟩
  | freeCas idx head seen =>
    change index (q.memory idx) = _
    rw [hmem]
    exact h
  | _ => trivial

theorem PoolInv.callFree (h : PoolInv n s l) {t : τ} {idx : ℕ} (hpc : s.pc t = .idle)
    (hown : idx ∈ s.owned t) :
    PoolInv n ({ s with owned := Function.update s.owned t ((s.owned t).erase idx) }.setPc t
      (.freeLoad idx)) l where
  bound := h.bound
  chain := h.chain
  tag_eq := h.tag_eq
  cells := by
    refine h.cells.release hown (by rw [hpc]; rfl) fun u => ?_
    by_cases hu : u = t <;> simp [PoolSystem.setPc, hu, PoolPc.held]
  threads u := by
    by_cases hu : u = t
    · subst hu
      simp [PoolSystem.setPc, ThreadOk]
    · simpa [PoolSystem.setPc, hu] using h.threads u

theorem PoolInv.take (h : PoolInv n s l) {t : τ} {head next : BitVec 64} {seen : ℕ}
    (hpc : s.pc t = .makeCas head next seen) (hfresh : s.casCount - seen < 2 ^ 32)
    (hhead : s.pool.freeHead = head) :
    ∃ l', l = index head :: l' ∧ PoolInv n (makeTake s t head next) l' := by
  have hu := h.threads t
  rw [hpc] at hu
  obtain ⟨hok, hnext⟩ := hu
  have hlt := hok.index_lt
  have hb := h.bound
  -- equal tags, and the count has moved by less than a whole turn
  have hcount : seen = s.casCount := by
    have h1 := h.tag_eq
    rw [hhead, hok.tag_eq] at h1
    have h2 := hok.seen_le
    omega
  subst hhead
  obtain ⟨l', rfl, hchain⟩ := h.head_mem (by omega)
  have hnodup := List.nodup_cons.mp h.chain.nodup
  refine ⟨l', rfl, ⟨h.bound, ?_, ?_, ?_, ?_⟩⟩
  · rw [Pool.nextIndex, hnext hcount] at hchain
    change Chain s.pool.nextIndex endOfList (index (advance s.pool.freeHead next)) l'
    rw [index_advance]
    exact hchain
  · have htag := h.tag_eq
    simp only [makeTake, tag_advance, htag]
    omega
  · refine h.cells.take hnodup.1 t fun u => ?_
    by_cases hut : u = t
    · subst hut
      simp [makeTake, hpc, PoolPc.held]
    · simp [makeTake, hut]
  · intro u
    by_cases hut : u = t
    · subst hut
      simp [makeTake, ThreadOk]
    · simp only [makeTake, Function.update_of_ne hut]
      exact threadOk_succ (h.threads u) rfl

theorem PoolInv.put (h : PoolInv n s l) {t : τ} {idx : ℕ} {head : BitVec 64} {seen : ℕ}
    (hpc : s.pc t = .freeCas idx head seen) (hhead : s.pool.freeHead = head) :
    PoolInv n (freePut s t idx head) (idx :: l) := by
  have hu := h.threads t
  rw [hpc] at hu
  have hb := h.bound
  have hheld : (s.pc t).held = some idx := by
    rw [hpc]
    rfl
  have hlt := Placed.lt h.cells (.held t) idx hheld
  subst hhead
  refine ⟨h.bound, ?_, ?_, ?_, ?_⟩
  · have hidx : index (BitVec.ofNat 64 idx) = idx := index_ofNat (by unfold endOfList at hb; omega)
    simp only [freePut, index_advance, hidx]
    exact h.chain.push (by omega) hu
  · have htag := h.tag_eq
    simp only [freePut, tag_advance, htag]
    omega
  · refine h.cells.put hheld fun u => ?_
    by_cases hut : u = t <;> simp [freePut, hut, PoolPc.held]
  · intro u
    by_cases hut : u = t
    · subst hut
      simp [freePut, ThreadOk]
    · simp only [freePut, Function.update_of_ne hut]
      exact threadOk_succ (h.threads u) rfl

/-! ## Steps and executions -/

/-- What an event says about the free list before and after. -/
def PoolEvent.Moves : PoolEvent τ → List ℕ → List ℕ → Prop
  | .made _ idx, l, l' => l = idx :: l'
  | .freed _ idx, l, l' => l' = idx :: l
  | .silent, l, l' => l' = l
  | .exhausted _, l, l' => l' = l

theorem makeHead_moves (s : PoolSystem τ) (t : τ) (l : List ℕ) : (makeHead s t).2.Moves l l := by
  unfold Memory.makeHead
  split_ifs
  · rfl
  · rfl

theorem PoolInv.threadStep (h : PoolInv n s l) {t : τ} {b : Bool} {u : PoolSystem τ}
    {e : PoolEvent τ} (hok : FreshTag s (.step t b)) (hs : threadStep s t b = some (u, e)) :
    ∃ l', PoolInv n u l' ∧ e.Moves l l' := by
  have hthread := h.threads t
  unfold Memory.threadStep at hs
  split at hs
  · cases hs
  · rename_i hpc
    have hm := h.makeHead hpc rfl
    have hl := makeHead_moves s t l
    rw [Option.some.inj hs] at hm hl
    exact ⟨l, hm, hl⟩
  · rename_i head seen hpc
    rw [hpc] at hthread
    cases hs
    exact ⟨l, h.setPc hpc rfl ⟨hthread, fun _ => rfl⟩, rfl⟩
  · rename_i head next seen hpc
    split_ifs at hs with hcas
    · cases hs
      have hfresh : s.casCount - seen < 2 ^ 32 := hok seen (by rw [hpc]; rfl)
      obtain ⟨l', hl, hi⟩ := h.take hpc hfresh hcas.2
      exact ⟨l', hi, hl⟩
    · have hm := h.makeHead hpc rfl
      have hl := makeHead_moves s t l
      rw [Option.some.inj hs] at hm hl
      exact ⟨l, hm, hl⟩
  · rename_i idx hpc
    cases hs
    exact ⟨l, h.setPc hpc rfl trivial, rfl⟩
  · rename_i idx head seen hpc
    cases hs
    have hheld : (s.pc t).held = some idx := by
      rw [hpc]
      rfl
    have hw := h.writeNext (head &&& 0xFFFFFFFF#64) (h.cells.notMem_of_held hheld) (by
      intro v head' seen' hv
      obtain rfl : t = v := h.cells.holder_unique hheld (by rw [hv]; rfl)
      rw [hpc] at hv
      cases hv)
    refine ⟨l, hw.setPc hpc rfl ?_, rfl⟩
    change (s.pool.writeNext idx _).nextIndex idx = _
    rw [Pool.nextIndex_writeNext, Function.update_self, Pool.index_and_mask]
  · rename_i idx head seen hpc
    split_ifs at hs with hcas
    · cases hs
      exact ⟨_, h.put hpc hcas.2, rfl⟩
    · cases hs
      exact ⟨l, h.setPc hpc rfl trivial, rfl⟩

theorem PoolInv.poolStep (h : PoolInv n s l) {a : PoolAction τ} {u : PoolSystem τ}
    {e : PoolEvent τ} (hok : FreshTag s a) (hs : poolStep s a = some (u, e)) :
    ∃ l', PoolInv n u l' ∧ e.Moves l l' := by
  cases a with
  | callMake t =>
    unfold Memory.poolStep at hs
    dsimp only at hs
    split at hs
    · rename_i hpc
      cases hs
      exact ⟨l, h.setPc hpc rfl trivial, rfl⟩
    · cases hs
  | callFree t idx =>
    unfold Memory.poolStep at hs
    dsimp only at hs
    split at hs
    · rename_i hpc
      split_ifs at hs with hown
      cases hs
      exact ⟨l, h.callFree hpc hown, rfl⟩
    · cases hs
  | write t idx word =>
    unfold Memory.poolStep at hs
    dsimp only at hs
    split_ifs at hs with hown
    cases hs
    refine ⟨l, h.writeNext word (h.cells.notMem_of_owned hown) ?_, rfl⟩
    intro v head seen hv
    exact h.cells.held_ne_of_owned hown (u := v) (by rw [hv]; rfl)
  | step t b => exact h.threadStep hok hs

omit [DecidableEq τ] in
theorem poolInit_inv {capacity : ℕ} (hpos : 1 ≤ capacity) (hcap : capacity ≤ 2 ^ 32 - 1)
    (memory : ℕ → BitVec 64) :
    PoolInv capacity (poolInit capacity memory : PoolSystem τ) (List.range capacity) := by
  have hfree := Pool.init_freeList hpos hcap memory
  refine ⟨?_, hfree.1, ?_, ?_, fun _ => trivial⟩
  · unfold endOfList
    omega
  · simp [poolInit, Pool.init]
  · exact cells_range capacity

theorem pool_invariant {capacity : ℕ} (hpos : 1 ≤ capacity) (hcap : capacity ≤ 2 ^ 32 - 1)
    {memory : ℕ → BitVec 64} {es : List (PoolEvent τ)} {s : PoolSystem τ}
    (h : Exec poolStep FreshTag (poolInit capacity memory) es s) :
    ∃ l, PoolInv capacity s l := by
  refine h.invariant (fun _ s => ∃ l, PoolInv capacity s l) ?_ ?_
  · exact ⟨List.range capacity, poolInit_inv hpos hcap memory⟩
  · rintro _ s a t e ⟨l, hi⟩ hok hs
    obtain ⟨l', hi', _⟩ := hi.poolStep hok hs
    exact ⟨l', hi'⟩

/-- A null answer comes with a reading of the head that finds the end of the list. -/
theorem exhausted_head {a : PoolAction τ} {u : PoolSystem τ} {t : τ}
    (hs : poolStep s a = some (u, .exhausted t)) : index s.pool.freeHead = endOfList := by
  have hmake : ∀ v : τ, (makeHead s v) = (u, .exhausted t) →
      index s.pool.freeHead = endOfList := by
    intro v hv
    unfold makeHead at hv
    split_ifs at hv with he
    · exact he
    · simp at hv
  cases a with
  | callMake v =>
    unfold poolStep at hs
    dsimp only at hs
    split at hs <;> simp at hs
  | callFree v idx =>
    unfold poolStep at hs
    dsimp only at hs
    split at hs
    · split_ifs at hs
      simp at hs
    · cases hs
  | write v idx word =>
    unfold poolStep at hs
    dsimp only at hs
    split_ifs at hs
    simp at hs
  | step v b =>
    unfold poolStep at hs
    dsimp only at hs
    unfold threadStep at hs
    split at hs
    · cases hs
    · exact hmake v (Option.some.inj hs)
    · simp at hs
    · split_ifs at hs
      · simp at hs
      · exact hmake v (Option.some.inj hs)
    · simp at hs
    · simp at hs
    · split_ifs at hs <;> simp at hs

/-- In every interleaving of any number of threads whose exchanges meet `FreshTag`: the chain from
the head ends, repeats no index and stays below the capacity; no cell has two owners or is owned
on the chain; every cell is on the chain, owned, or with a thread inside `free`; and `make`
answers null only when the chain was empty at its last reading of the head. -/
theorem pool_contention {capacity : ℕ} (hpos : 1 ≤ capacity) (hcap : capacity ≤ 2 ^ 32 - 1)
    (memory : ℕ → BitVec 64) (es : List (PoolEvent τ)) (s : PoolSystem τ)
    (h : Exec poolStep FreshTag (poolInit capacity memory) es s) :
    ∃ l, Chain s.pool.nextIndex endOfList (index s.pool.freeHead) l ∧ l.Nodup ∧
      (∀ i ∈ l, i < capacity) ∧
      (∀ t u i, i ∈ s.owned t → i ∈ s.owned u → t = u) ∧
      (∀ t i, i ∈ s.owned t → i ∉ l) ∧
      (∀ i < capacity, i ∈ l ∨ (∃ t, i ∈ s.owned t) ∨ ∃ t, (s.pc t).held = some i) ∧
      (∀ a u t, poolStep s a = some (u, .exhausted t) → l = []) := by
  obtain ⟨l, hi⟩ := pool_invariant hpos hcap h
  refine ⟨l, hi.chain, hi.chain.nodup, fun i hm => Placed.lt hi.cells .chain i hm, ?_, ?_, ?_, ?_⟩
  · intro t u i ht hu
    exact hi.cells.owner_unique ht hu
  · intro t i ht
    exact hi.cells.notMem_of_owned ht
  · intro i hlt
    exact hi.cells.cases hlt
  · intro a u t hs
    exact hi.chain.eq_nil_iff.mpr (exhausted_head hs)

/-- Two threads race for the first of two cells; the loser retries and takes the second. -/
theorem pool_contention_two_threads :
    ∃ (es : List (PoolEvent Bool)) (s : PoolSystem Bool),
      Exec poolStep FreshTag (poolInit 2 fun _ => 0#64) es s ∧ 0 ∈ s.owned true ∧
      ∃ l, Chain s.pool.nextIndex endOfList (index s.pool.freeHead) l ∧ 0 ∉ l := by
  have h := exec_of_run (show run poolStep FreshTag (poolInit 2 fun _ => 0#64)
    [.callMake true, .callMake false, .step true false, .step false false, .step false false,
      .step true false, .step true false, .write true 0 5#64, .step false false,
      .step false false, .step false false] = some (_, _) from rfl)
  have hown : (0 : ℕ) ∈ (insert 0 ∅ : Finset ℕ) := by decide
  obtain ⟨l, hc, -, -, -, hnot, -⟩ := pool_contention (by decide) (by decide) _ _ _ h
  exact ⟨_, _, h, hown, l, hc, hnot true 0 hown⟩

end Safety

end ConduitRuntime.Memory
