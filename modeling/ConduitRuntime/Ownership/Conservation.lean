import ConduitRuntime.Foundations.Placement
import ConduitRuntime.Ownership.World

/-! Every cell of the pool is in exactly one place: on the free list, behind one owning handle, or
in one occupied slot of one ring. Each handle operation moves at most one cell, so the partition is
kept from statement to statement and inside each statement. -/
namespace ConduitRuntime.Ownership
open Memory Execution Placement ConduitRuntime.Ring
set_option autoImplicit false

variable {N H R : Type} {size : R → ℕ}

/-- Where a cell can be. -/
inductive Place (N R : Type)
  | freeList
  | handle (x : N)
  | slot (r : R) (j : ℕ)

/-- The handle is alive and refers to the cell `i` with a non-null deleter. -/
def Owns (o : Option (EventPtr ℕ Unit)) (i : ℕ) : Prop :=
  ∃ e, o = some e ∧ e.ptr = some i ∧ e.deleter ≠ none

def World.refs (w : World N R size) (l : List ℕ) : Place N R → ℕ → Prop
  | .freeList, i => i ∈ l
  | .handle x, i => Owns (w.handles x) i
  | .slot r j, i => (w.rings r).HoldsAt j i

/-- What happened to the objects in the cell `i`, oldest first. -/
def lifeOf (i : ℕ) (es : List LifeEvent) : List LifeEvent :=
  es.filter fun e => e = .constructed i ∨ e = .destroyed i

/-- The life of the cell `i`: `k` objects, each made and then destroyed once, and one more that
still lives unless the cell is free. -/
def Lived (i : ℕ) (isFree : Prop) (es : List LifeEvent) : Prop :=
  ∃ k, (isFree ∧ lifeOf i es = (List.replicate k [.constructed i, .destroyed i]).flatten) ∨
    (¬ isFree ∧
      lifeOf i es = (List.replicate k [.constructed i, .destroyed i]).flatten ++ [.constructed i])

theorem lifeOf_append (i : ℕ) (es fs : List LifeEvent) :
    lifeOf i (es ++ fs) = lifeOf i es ++ lifeOf i fs := by
  simp [lifeOf]

theorem Lived.of_other {i : ℕ} {P Q : Prop} {es : List LifeEvent} {e : LifeEvent}
    (h : Lived i P es) (hPQ : Q ↔ P) (hc : e ≠ .constructed i) (hd : e ≠ .destroyed i) :
    Lived i Q (es ++ [e]) := by
  have he : lifeOf i (es ++ [e]) = lifeOf i es := by
    rw [lifeOf_append]
    simp [lifeOf, hc, hd]
  unfold Lived
  rw [he, hPQ]
  exact h

theorem Lived.construct {i : ℕ} {P Q : Prop} {es : List LifeEvent} (h : Lived i P es) (hP : P)
    (hQ : ¬ Q) : Lived i Q (es ++ [.constructed i]) := by
  obtain ⟨k, ⟨_, he⟩ | ⟨hn, _⟩⟩ := h
  · refine ⟨k, .inr ⟨hQ, ?_⟩⟩
    rw [lifeOf_append, he]
    simp [lifeOf]
  · exact absurd hP hn

theorem Lived.destroy {i : ℕ} {P Q : Prop} {es : List LifeEvent} (h : Lived i P es) (hP : ¬ P)
    (hQ : Q) : Lived i Q (es ++ [.destroyed i]) := by
  obtain ⟨k, ⟨hp, _⟩ | ⟨_, he⟩⟩ := h
  · exact absurd hp hP
  · refine ⟨k + 1, .inl ⟨hQ, ?_⟩⟩
    rw [lifeOf_append, he, List.replicate_succ']
    simp [lifeOf]

/-! ## The partition -/

/-- The partition of a world over a pool of `n` cells; `l` is the free list. -/
structure Settled (n : ℕ) (w : World N R size) (l : List ℕ) : Prop where
  chain : w.pool.FreeList n l
  placed : Placed n (w.refs l)
  owning : ∀ x e, w.handles x = some e → e.ptr ≠ none → e.deleter ≠ none ∧ e.poolCtx = some ()

theorem not_owns_of_null {o : Option (EventPtr ℕ Unit)} (h : ∀ e, o = some e → e.ptr = none)
    (i : ℕ) : ¬ Owns o i := by
  rintro ⟨e, rfl, hp, _⟩
  simp [h e rfl] at hp

theorem not_owns_none (i : ℕ) : ¬ Owns none i := by
  simp [Owns]

theorem not_owns_cleared (e : EventPtr ℕ Unit) (i : ℕ) : ¬ Owns (some e.cleared) i := by
  simp [Owns]

namespace Settled
variable {n : ℕ} {w : World N R size} {l : List ℕ}

theorem owns_iff (h : Settled n w l) {x : N} {e : EventPtr ℕ Unit} (hx : w.handles x = some e)
    (i : ℕ) : Owns (w.handles x) i ↔ e.ptr = some i := by
  constructor
  · rintro ⟨e', he', hp, _⟩
    rw [hx] at he'
    cases he'
    exact hp
  · intro hp
    exact ⟨e, hx, hp, (h.owning x e hx (by simp [hp])).1⟩

theorem deleterCall_eq (h : Settled n w l) {x : N} {e : EventPtr ℕ Unit}
    (hx : w.handles x = some e) : e.deleterCall = e.ptr.map fun i => (some (), i) := by
  cases hp : e.ptr with
  | none => simp [EventPtr.deleterCall, hp]
  | some i =>
    obtain ⟨hd, hc⟩ := h.owning x e hx (by simp [hp])
    exact EventPtr.deleterCall_eq_some_iff.mpr ⟨hp, hd, hc⟩

end Settled

section Updates
variable (w : World N R size) (l : List ℕ)

theorem refs_setHandle_self [DecidableEq N] (x : N) (o : Option (EventPtr ℕ Unit)) (i : ℕ) :
    (w.setHandle x o).refs l (.handle x) i ↔ Owns o i := by
  simp [World.refs, World.setHandle]

/-- Only the free list depends on the pool. -/
theorem refs_pool_ne (pool : Pool) (l' : List ℕ) {p : Place N R} (hp : p ≠ .freeList) (i : ℕ) :
    { w with pool := pool }.refs l' p i ↔ w.refs l p i := by
  cases p with
  | freeList => exact absurd rfl hp
  | handle y => exact Iff.rfl
  | slot r k => exact Iff.rfl

theorem refs_setHandle_ne [DecidableEq N] {x : N} (o : Option (EventPtr ℕ Unit)) {p : Place N R}
    (hp : p ≠ .handle x) (i : ℕ) : (w.setHandle x o).refs l p i ↔ w.refs l p i := by
  cases p with
  | freeList => exact Iff.rfl
  | slot r j => exact Iff.rfl
  | handle y =>
    have hy : y ≠ x := fun h => hp (by rw [h])
    simp [World.refs, World.setHandle, hy]

theorem refs_setRing_self [DecidableEq R] (r : R) (c : Conduit ℕ (size r)) (j i : ℕ) :
    (w.setRing r c).refs l (.slot r j) i ↔ c.HoldsAt j i := by
  simp [World.refs, World.setRing]

theorem refs_setRing_ne [DecidableEq R] {r : R} (c : Conduit ℕ (size r)) {p : Place N R}
    (hp : ∀ j, p ≠ .slot r j) (i : ℕ) : (w.setRing r c).refs l p i ↔ w.refs l p i := by
  cases p with
  | freeList => exact Iff.rfl
  | handle x => exact Iff.rfl
  | slot r' j =>
    have hr : r' ≠ r := by
      rintro rfl
      exact hp j rfl
    simp [World.refs, World.setRing, hr]

theorem setRing_eq_self [DecidableEq R] (r : R) : w.setRing r (w.rings r) = w := by
  simp [World.setRing]

theorem setHandle_setHandle [DecidableEq N] (x : N) (o o' : Option (EventPtr ℕ Unit)) :
    (w.setHandle x o).setHandle x o' = w.setHandle x o' := by
  simp [World.setHandle]

end Updates

namespace Settled
variable {n : ℕ} {w : World N R size} {l : List ℕ}

theorem owning_setHandle [DecidableEq N]
    (h : ∀ x e, w.handles x = some e → e.ptr ≠ none → e.deleter ≠ none ∧ e.poolCtx = some ())
    (x : N) {o : Option (EventPtr ℕ Unit)}
    (ho : ∀ e, o = some e → e.ptr ≠ none → e.deleter ≠ none ∧ e.poolCtx = some ()) :
    ∀ y e, (w.setHandle x o).handles y = some e → e.ptr ≠ none →
      e.deleter ≠ none ∧ e.poolCtx = some () := by
  intro y e he hp
  by_cases hy : y = x
  · subst hy
    exact ho e (by simpa [World.setHandle] using he) hp
  · exact h y e (by simpa [World.setHandle, hy] using he) hp

theorem setNull [DecidableEq N] (h : Settled n w l) {x : N} (hx : ∀ i, ¬ Owns (w.handles x) i)
    {o : Option (EventPtr ℕ Unit)} (ho : ∀ e, o = some e → e.ptr = none) :
    Settled n (w.setHandle x o) l := by
  refine ⟨h.chain, h.placed.congr fun p i => ?_, owning_setHandle h.owning x fun e he hp => ?_⟩
  · by_cases hp : p = .handle x
    · subst hp
      rw [refs_setHandle_self]
      exact iff_of_false (not_owns_of_null ho i) (hx i)
    · exact refs_setHandle_ne w l o hp i
  · exact absurd (ho e he) hp

/-- The cell behind the handle `y`, if any, moves behind the handle `x`, which held none. -/
theorem transfer [DecidableEq N] (h : Settled n w l) {x y : N} {e : EventPtr ℕ Unit} (hxy : x ≠ y)
    (hx : ∀ i, ¬ Owns (w.handles x) i) (hy : w.handles y = some e) :
    Settled n ((w.setHandle x (some e)).setHandle y (some e.cleared)) l := by
  have hne : (Place.handle x : Place N R) ≠ .handle y := fun hc => hxy (by cases hc; rfl)
  have hat : ∀ j, w.refs l (.handle y) j ↔ e.ptr = some j := h.owns_iff hy
  refine ⟨h.chain, h.placed.relocate hne.symm (fun i hi => (hat i).mpr hi) (fun j => ?_)
    (fun j => ?_) (fun z hzy hzx j => ?_), ?_⟩
  · rw [refs_setHandle_self, hat]
    exact iff_of_false (not_owns_cleared e j) (by simp)
  · rw [refs_setHandle_ne _ _ _ hne, refs_setHandle_self, ← hy, h.owns_iff hy]
    have hxj : ¬ w.refs l (.handle x) j := hx j
    simp [hxj]
  · rw [refs_setHandle_ne _ _ _ hzy, refs_setHandle_ne _ _ _ hzx]
  · refine owning_setHandle (owning_setHandle h.owning x fun e' he' hp' => ?_) y
      fun e' he' hp' => ?_
    · cases he'
      exact h.owning y e hy hp'
    · cases he'
      simp at hp'

/-- The deleter call of a handle that is then cleared: its cell, if any, goes to the free list and
the destructor runs once. -/
theorem release [DecidableEq N] (hcap : n ≤ 2 ^ 32 - 1) (h : Settled n w l) {x : N}
    {e : EventPtr ℕ Unit} (hx : w.handles x = some e) :
    ∃ w' ev l', w.callDeleter e.deleterCall = some (w', ev) ∧
      Settled n (w'.setHandle x (some e.cleared)) l' ∧
      ∀ i < n, ∀ es, Lived i (i ∈ l) es → Lived i (i ∈ l') (es ++ [ev]) := by
  rw [h.deleterCall_eq hx]
  cases hp : e.ptr with
  | none =>
    refine ⟨w, .silent, l, rfl, h.setNull (fun i => ?_) (by simp), fun i _ es hl => ?_⟩
    · simp [h.owns_iff hx, hp]
    · exact hl.of_other Iff.rfl (by simp) (by simp)
  | some i =>
    have hxi : w.refs l (.handle x) i := (h.owns_iff hx i).mpr hp
    have hin : i < n := h.placed.lt _ _ hxi
    have hnotin : i ∉ l := fun hi => by
      cases h.placed.unique (x := .freeList) hi hxi
    refine ⟨_, _, i :: l, rfl, ⟨Pool.free_freeList hcap h.chain hin hnotin,
      h.placed.relocate (x := .handle x) (y := .freeList) (o := e.ptr) (by simp)
      (fun k hk => (h.owns_iff hx k).mpr hk) (fun j => ?_) (fun j => ?_)
      (fun z hzx hzf j => ?_), ?_⟩, fun j hj es hl => ?_⟩
    · rw [refs_setHandle_self]
      exact iff_of_false (not_owns_cleared e j) fun hj => hj.2 ((h.owns_iff hx j).mp hj.1)
    · simp [World.refs, hp, or_comm, eq_comm]
    · rw [refs_setHandle_ne _ _ _ hzx]
      exact refs_pool_ne w _ _ _ hzf j
    · exact owning_setHandle h.owning x fun e' he' hp' => by
        cases he'
        simp at hp'
    · by_cases hji : j = i
      · subst hji
        exact hl.destroy hnotin (by simp)
      · exact hl.of_other (by simp [hji]) (by simp) (by simp [Ne.symm hji])

/-- `make` into a handle that held no cell. -/
theorem make [DecidableEq N] (h : Settled n w l) {x : N} (hx : ∀ i, ¬ Owns (w.handles x) i)
    (object : BitVec 64) :
    ∃ l', Settled n ({ w with pool := (w.pool.make () object).1 }.setHandle x
        (some (w.pool.make () object).2)) l' ∧
      ∀ i < n, ∀ es, Lived i (i ∈ l) es →
        Lived i (i ∈ l') (es ++ [lifeOfMake (w.pool.make () object).2]) := by
  cases l with
  | nil =>
    rw [Pool.make_of_nil () object h.chain]
    refine ⟨[], h.setNull hx (by simp), fun i _ es hl => ?_⟩
    exact hl.of_other Iff.rfl (by simp [lifeOfMake]) (by simp [lifeOfMake])
  | cons i l =>
    obtain ⟨hmade, hfree⟩ := Pool.make_of_cons () object h.chain
    have hnotin : i ∉ l := (List.nodup_cons.mp h.chain.1.nodup).1
    rw [hmade]
    refine ⟨l, ⟨hfree, h.placed.relocate (x := .freeList) (y := .handle x) (o := some i) (by simp)
      (by simp [World.refs]) (fun j => ?_) (fun j => ?_) (fun z hzf hzx j => ?_), ?_⟩,
      fun j hj es hl => ?_⟩
    · simp only [World.refs, List.mem_cons]
      constructor
      · intro hj
        refine ⟨.inr hj, fun he => hnotin ?_⟩
        rw [Option.some.inj he]
        exact hj
      · rintro ⟨rfl | hj, hne⟩
        · exact absurd rfl hne
        · exact hj
    · rw [refs_setHandle_self]
      have hxj : ¬ w.refs (i :: l) (.handle x) j := hx j
      simp [Owns, hxj, eq_comm]
    · rw [refs_setHandle_ne _ _ _ hzx]
      exact refs_pool_ne w _ _ _ hzf j
    · exact owning_setHandle h.owning x fun e he _ => by
        cases he
        simp
    · by_cases hji : j = i
      · subst hji
        exact hl.construct (by simp) hnotin
      · exact hl.of_other (by simp [hji]) (by simp [lifeOfMake, Ne.symm hji]) (by simp [lifeOfMake])

/-- An accepted push of the pointer of `x`, after which `x` is cleared. -/
theorem push [DecidableEq N] [DecidableEq R] (h : Settled n w l) {x : N} {e : EventPtr ℕ Unit}
    (hx : w.handles x = some e) {r : R} (hroom : (w.rings r).contents.length + 1 ≠ size r) :
    Settled n ((w.setRing r ((w.rings r).push e.ptr).1).setHandle x (some e.cleared)) l := by
  have hslot : ∀ j i, ((w.setRing r ((w.rings r).push e.ptr).1).setHandle x
      (some e.cleared)).refs l (.slot r j) i ↔ ((w.rings r).push e.ptr).1.HoldsAt j i := by
    intro j i
    rw [refs_setHandle_ne _ _ _ (by simp), refs_setRing_self]
  have hat : ∀ j, w.refs l (.handle x) j ↔ e.ptr = some j := h.owns_iff hx
  refine ⟨h.chain, h.placed.relocate (x := .handle x) (y := .slot r (w.rings r).writeIdx)
    (by simp) (fun i hi => (hat i).mpr hi) (fun j => ?_) (fun j => ?_) (fun z hzx hzr j => ?_),
    owning_setHandle h.owning x (by simp)⟩
  · rw [refs_setHandle_self, hat]
    exact iff_of_false (not_owns_cleared e j) (by simp)
  · rw [hslot, Conduit.holdsAt_push_write _ _ hroom]
    have hnot : ¬ w.refs l (.slot r (w.rings r).writeIdx) j := (w.rings r).not_holdsAt_write j
    simp [hnot]
  · by_cases hpr : ∃ k, z = .slot r k
    · obtain ⟨k, rfl⟩ := hpr
      rw [hslot]
      exact Conduit.holdsAt_push_ne _ _ hroom (fun hk => hzr (by rw [hk])) j
    · rw [refs_setHandle_ne _ _ _ hzx, refs_setRing_ne _ _ _ fun k hk => hpr ⟨k, hk⟩]

/-- A pop into a handle that held no cell. -/
theorem pop [DecidableEq N] [DecidableEq R] (h : Settled n w l) {x : N} {r : R}
    (hx : ∀ i, ¬ Owns (w.handles x) i) (hne : (w.rings r).contents ≠ []) :
    Settled n ((w.setRing r ((w.rings r).storeRead (w.rings r).readIdx)).setHandle x
      (some ⟨(w.rings r).ring (w.rings r).readIdx, some .releaseToPool, some ()⟩)) l := by
  have hslot : ∀ j i o, ((w.setRing r ((w.rings r).storeRead (w.rings r).readIdx)).setHandle x
      o).refs l (.slot r j) i ↔ j ≠ (w.rings r).readIdx ∧ w.refs l (.slot r j) i := by
    intro j i o
    rw [refs_setHandle_ne _ _ _ (by simp), refs_setRing_self, Conduit.holdsAt_storeRead _ hne]
    exact Iff.rfl
  have hread : ∀ j, w.refs l (.slot r (w.rings r).readIdx) j ↔
      (w.rings r).ring (w.rings r).readIdx = some j := Conduit.holdsAt_read _ hne
  refine ⟨h.chain, h.placed.relocate (x := .slot r (w.rings r).readIdx) (y := .handle x)
    (by simp) (fun i hi => (hread i).mpr hi) (fun j => ?_) (fun j => ?_) (fun z hzr hzx j => ?_),
    owning_setHandle h.owning x (by simp)⟩
  · rw [hslot, hread]
    exact iff_of_false (fun hj => hj.1 rfl) (by simp)
  · rw [refs_setHandle_self]
    have hxj : ¬ w.refs l (.handle x) j := hx j
    simp [Owns, hxj]
  · by_cases hpr : ∃ k, z = .slot r k
    · obtain ⟨k, rfl⟩ := hpr
      rw [hslot]
      exact and_iff_right fun hk => hzr (by rw [hk])
    · rw [refs_setHandle_ne _ _ _ hzx, refs_setRing_ne _ _ _ fun k hk => hpr ⟨k, hk⟩]

theorem write (h : Settled n w l) {x : N} {e : EventPtr ℕ Unit} (hx : w.handles x = some e) {i : ℕ}
    (hi : e.ptr = some i) (word : BitVec 64) :
    Settled n { w with pool := w.pool.writeNext i word } l := by
  have hnotin : i ∉ l := fun hm => by
    cases h.placed.unique (x := .freeList) (y := .handle x) hm ((h.owns_iff hx i).mpr hi)
  refine ⟨Pool.writeNext_freeList h.chain hnotin word, h.placed.congr fun p j => ?_, h.owning⟩
  cases p <;> exact Iff.rfl

end Settled

/-! ## Steps and runs -/

/-- The partition together with the history `es` of the objects. -/
def Conserved (n : ℕ) (es : List LifeEvent) (w : World N R size) : Prop :=
  ∃ l, Settled n w l ∧ ∀ i < n, Lived i (i ∈ l) es

theorem Conserved.of_settled {n : ℕ} {es : List LifeEvent} {w' : World N R size} {l : List ℕ}
    (hl : ∀ i < n, Lived i (i ∈ l) es) (h : Settled n w' l) : Conserved n (es ++ [.silent]) w' :=
  ⟨l, h, fun i hi => (hl i hi).of_other Iff.rfl (by simp) (by simp)⟩

theorem init_conserved {n : ℕ} (hpos : 1 ≤ n) (hcap : n ≤ 2 ^ 32 - 1) (memory : ℕ → BitVec 64)
    (hsize : ∀ r, 0 < size r) (slots : R → ℕ → Option ℕ) :
    Conserved n [] (World.init n memory hsize slots : World N R size) := by
  refine ⟨List.range n, ⟨Pool.init_freeList hpos hcap memory, ⟨?_, ?_⟩, ?_⟩, fun i hi => ?_⟩
  · intro p i hi
    cases p with
    | freeList => exact List.mem_range.mp hi
    | handle x => exact absurd hi (not_owns_none i)
    | slot r j => exact absurd hi (Conduit.not_holdsAt_of_empty (Conduit.contents_fresh _ _) j i)
  · intro i hi
    refine ⟨.freeList, List.mem_range.mpr hi, fun p hp => ?_⟩
    cases p with
    | freeList => rfl
    | handle x => exact absurd hp (not_owns_none i)
    | slot r j => exact absurd hp (Conduit.not_holdsAt_of_empty (Conduit.contents_fresh _ _) j i)
  · intro x e he
    cases he
  · exact ⟨0, .inl ⟨List.mem_range.mpr hi, rfl⟩⟩

section Steps
variable {n : ℕ} {es : List LifeEvent} {w : World N R size}

theorem not_owns_of_dead {x : N} (hx : w.handles x = none) (i : ℕ) : ¬ Owns (w.handles x) i := by
  rw [hx]
  exact not_owns_none i

variable [DecidableEq N]

theorem dropInto_spec (hcap : n ≤ 2 ^ 32 - 1) (h : Conserved n es w) {x : N} {e : EventPtr ℕ Unit}
    (hx : w.handles x = some e) {o : Option (EventPtr ℕ Unit)}
    (ho : ∀ e', o = some e' → e'.ptr = none) :
    ∃ w' ev, dropInto w x e o = some (w', ev) ∧ Conserved n (es ++ [ev]) w' := by
  obtain ⟨l, hs, hl⟩ := h
  obtain ⟨w', ev, l', hcall, hs', hl'⟩ := hs.release hcap hx
  refine ⟨w'.setHandle x o, ev, ?_, l', ?_, fun i hi => hl' i hi es (hl i hi)⟩
  · simp [dropInto, EventPtr.reset, hcall]
  · rw [← setHandle_setHandle w' x (some e.cleared) o]
    refine hs'.setNull (fun i => ?_) ho
    have hc : (w'.setHandle x (some e.cleared)).handles x = some e.cleared := by
      simp [World.setHandle]
    rw [hc]
    exact not_owns_cleared e i

variable [DecidableEq R]

theorem moveAssign_spec (hcap : n ≤ 2 ^ 32 - 1) (h : Conserved n es w) {x other : N}
    {this e : EventPtr ℕ Unit} (hx : w.handles x = some this) (ho : w.handles other = some e) :
    ∃ w' ev, primStep w (.moveAssign x other) = some (w', ev) ∧ Conserved n (es ++ [ev]) w' := by
  obtain ⟨l, hs, hl⟩ := h
  by_cases hxo : x = other
  · refine ⟨w, .silent, ?_, Conserved.of_settled hl hs⟩
    simp [primStep, ho, hxo]
  · obtain ⟨w', ev, l', hcall, hs', hl'⟩ := hs.release hcap hx
    refine ⟨(w'.setHandle x (some e)).setHandle other (some e.cleared), ev, ?_, l', ?_,
      fun i hi => hl' i hi es (hl i hi)⟩
    · simp [primStep, hx, ho, hxo, EventPtr.moveAssign, EventPtr.reset, hcall]
    · rw [← setHandle_setHandle w' x (some this.cleared) (some e)]
      have hhandles : w'.handles = w.handles := by
        rw [hs.deleterCall_eq hx] at hcall
        cases hp : this.ptr <;> simp [hp, World.callDeleter] at hcall <;> rw [← hcall.1]
      refine hs'.transfer hxo (fun i => ?_) ?_
      · have hc : (w'.setHandle x (some this.cleared)).handles x = some this.cleared := by
          simp [World.setHandle]
        rw [hc]
        exact not_owns_cleared this i
      · simpa [World.setHandle, Ne.symm hxo, hhandles] using ho

theorem handOff_spec (h : Conserved n es w) {x : N} {e : EventPtr ℕ Unit}
    (hx : w.handles x = some e) (r : R) :
    ∃ w' ev, primStep w (.handOff x r) = some (w', ev) ∧ Conserved n (es ++ [ev]) w' := by
  obtain ⟨l, hs, hl⟩ := h
  refine ⟨_, _, by simp only [primStep, hx]; rfl, ?_⟩
  apply Conserved.of_settled hl
  by_cases hroom : (w.rings r).contents.length + 1 = size r
  · rw [Conduit.push_of_full _ _ hroom]
    simpa [setRing_eq_self] using hs
  · have htaken := ((w.rings r).push_of_room e.ptr hroom).1
    rw [htaken]
    simpa [EventPtr.release] using hs.push hx hroom

theorem pop_spec (h : Conserved n es w) {x : N} (hx : w.handles x = none) (r : R) :
    ∃ w' ev, primStep w (.pop x r) = some (w', ev) ∧ Conserved n (es ++ [ev]) w' := by
  obtain ⟨l, hs, hl⟩ := h
  refine ⟨_, _, by simp only [primStep, hx]; rfl, ?_⟩
  apply Conserved.of_settled hl
  by_cases hne : (w.rings r).contents = []
  · rw [Conduit.pop_of_empty _ _ hne]
    simp only [setRing_eq_self]
    exact hs.setNull (not_owns_of_dead hx) (by simp)
  · rw [Conduit.pop_eq_of_ne _ _ hne]
    exact hs.pop (not_owns_of_dead hx) hne

/-- A step the lifetime rules allow is never stuck and keeps the invariant. -/
theorem primStep_spec (hcap : n ≤ 2 ^ 32 - 1) (h : Conserved n es w) {a : Prim N R}
    (ha : a.Legal w) : ∃ w' ev, primStep w a = some (w', ev) ∧ Conserved n (es ++ [ev]) w' := by
  have halive : ∀ {x}, w.handles x ≠ none → ∃ e, w.handles x = some e :=
    fun hx => Option.ne_none_iff_exists'.mp hx
  cases a with
  | declare x =>
    obtain ⟨l, hs, hl⟩ := h
    have hx : w.handles x = none := ha
    refine ⟨_, _, by simp only [primStep, hx]; rfl, Conserved.of_settled hl ?_⟩
    exact hs.setNull (not_owns_of_dead hx) (by simp)
  | make x object =>
    obtain ⟨l, hs, hl⟩ := h
    have hx : w.handles x = none := ha
    obtain ⟨l', hs', hl'⟩ := hs.make (not_owns_of_dead hx) object
    exact ⟨_, _, by simp only [primStep, hx], l', hs', fun i hi => hl' i hi es (hl i hi)⟩
  | moveConstruct x other =>
    obtain ⟨l, hs, hl⟩ := h
    obtain ⟨hx, ho⟩ := ha
    obtain ⟨e, ho⟩ := halive ho
    have hxo : x ≠ other := by
      rintro rfl
      simp [hx] at ho
    refine ⟨_, _, by simp only [primStep, hx, ho]; rfl, Conserved.of_settled hl ?_⟩
    exact hs.transfer hxo (not_owns_of_dead hx) ho
  | moveAssign x other =>
    obtain ⟨this, hx⟩ := halive ha.1
    obtain ⟨e, ho⟩ := halive ha.2
    exact moveAssign_spec hcap h hx ho
  | reset x =>
    obtain ⟨e, hx⟩ := halive ha
    obtain ⟨w', ev, hd, hc⟩ := dropInto_spec hcap h hx (o := some e.reset.1)
      (by simp [EventPtr.reset])
    exact ⟨w', ev, by simpa only [primStep, hx] using hd, hc⟩
  | destroy x =>
    obtain ⟨e, hx⟩ := halive ha
    obtain ⟨w', ev, hd, hc⟩ := dropInto_spec hcap h hx (o := none) (by simp)
    exact ⟨w', ev, by simpa only [primStep, hx] using hd, hc⟩
  | handOff x r =>
    obtain ⟨e, hx⟩ := halive ha
    exact handOff_spec h hx r
  | pop x r => exact pop_spec h ha r
  | write x word =>
    obtain ⟨l, hs, hl⟩ := h
    obtain ⟨⟨ptr, deleter, ctx⟩, hx, hp⟩ := ha
    obtain ⟨i, rfl⟩ := Option.ne_none_iff_exists'.mp hp
    refine ⟨_, _, by simp only [primStep, hx]; rfl, Conserved.of_settled hl ?_⟩
    exact hs.write hx rfl word

theorem legal_of_primStep {a : Prim N R} {r : World N R size × LifeEvent}
    (hs : primStep w a = some r) : a.Legal w := by
  cases a with
  | write x word =>
    cases hx : w.handles x with
    | none => simp [primStep, hx] at hs
    | some e =>
      obtain ⟨ptr, deleter, ctx⟩ := e
      cases ptr with
      | none => simp [primStep, hx] at hs
      | some i => exact ⟨_, hx, by simp⟩
  | declare x => cases hx : w.handles x <;> simp_all [primStep, Prim.Legal]
  | make x object => cases hx : w.handles x <;> simp_all [primStep, Prim.Legal]
  | pop x r => cases hx : w.handles x <;> simp_all [primStep, Prim.Legal]
  | reset x => cases hx : w.handles x <;> simp_all [primStep, Prim.Legal]
  | destroy x => cases hx : w.handles x <;> simp_all [primStep, Prim.Legal]
  | handOff x r => cases hx : w.handles x <;> simp_all [primStep, Prim.Legal]
  | moveConstruct x other =>
    cases hx : w.handles x <;> cases ho : w.handles other <;> simp_all [primStep, Prim.Legal]
  | moveAssign x other =>
    cases hx : w.handles x <;> cases ho : w.handles other <;> simp_all [primStep, Prim.Legal]

theorem primStep_conserved (hcap : n ≤ 2 ^ 32 - 1) (h : Conserved n es w) {a : Prim N R}
    {w' : World N R size} {ev : LifeEvent} (hs : primStep w a = some (w', ev)) :
    Conserved n (es ++ [ev]) w' := by
  obtain ⟨w₁, ev₁, hs₁, hc⟩ := primStep_spec hcap h (legal_of_primStep hs)
  rw [hs] at hs₁
  cases hs₁
  exact hc

end Steps

/-- In every state inside and between the statements of a program, every cell has exactly one
place, handles and slots refer to cells that are not free, the objects of each cell were destroyed
once each, and no legal operation is stuck. -/
theorem ownership_conservation [DecidableEq H] [DecidableEq R] {n : ℕ} (hpos : 1 ≤ n)
    (hcap : n ≤ 2 ^ 32 - 1) (memory : ℕ → BitVec 64) (hsize : ∀ r, 0 < size r)
    (slots : R → ℕ → Option ℕ) (ops : List (Op H R)) (k : ℕ) {es : List LifeEvent}
    {w : World (Option H) R size}
    (hrun : run primStep (fun _ _ => True) (World.init n memory hsize slots)
      ((ops.flatMap Op.prims).take k) = some (es, w)) :
    ∃ l, w.pool.FreeList n l ∧ l.Nodup ∧
      (∀ i < n, ∃! p, w.refs l p i) ∧
      (∀ x e i, w.handles x = some e → e.ptr = some i →
        i < n ∧ i ∉ l ∧ e.deleter ≠ none ∧ e.poolCtx = some ()) ∧
      (∀ r i, some i ∈ (w.rings r).contents → i < n ∧ i ∉ l) ∧
      (∀ i < n, Lived i (i ∈ l) es) ∧
      ∀ a : Prim (Option H) R, a.Legal w → ∃ w' ev, primStep w a = some (w', ev) := by
  have hinv : Conserved n es w := by
    refine (exec_of_run hrun).invariant (fun es w => Conserved n es w) ?_ ?_
    · exact init_conserved hpos hcap memory hsize slots
    · intro es s a t e h _ hs
      exact primStep_conserved hcap h hs
  obtain ⟨l, hs, hl⟩ := id hinv
  refine ⟨l, hs.chain, hs.chain.1.nodup, hs.placed.exists_unique, ?_, ?_, hl, ?_⟩
  · intro x e i hx hp
    have hxi : w.refs l (.handle x) i := (hs.owns_iff hx i).mpr hp
    obtain ⟨hd, hc⟩ := hs.owning x e hx (by simp [hp])
    refine ⟨hs.placed.lt _ _ hxi, fun hi => ?_, hd, hc⟩
    cases hs.placed.unique (x := .freeList) hi hxi
  · intro r i hi
    obtain ⟨j, hj⟩ := ((w.rings r).mem_contents_iff i).mp hi
    have hri : w.refs l (.slot r j) i := hj
    refine ⟨hs.placed.lt _ _ hri, fun hm => ?_⟩
    cases hs.placed.unique (x := .freeList) hm hri
  · intro a ha
    obtain ⟨w', ev, hstep, _⟩ := primStep_spec hcap hinv ha
    exact ⟨w', ev, hstep⟩

/-- Two cells and one ring: both are made, one is pushed, the other assigned over, and the pushed
one comes back. -/
theorem ownership_conservation_two_cells :
    ∃ (es : List LifeEvent) (w : World (Option Bool) Unit fun _ => 2) (l : List ℕ),
      es = [.silent, .silent, .constructed 0, .silent, .silent, .silent, .constructed 1, .silent,
        .silent, .silent, .silent, .destroyed 1, .silent] ∧
      l = [1] ∧ w.pool.FreeList 2 l ∧ ∀ i < 2, ∃! p, w.refs l p i := by
  have h := @ownership_conservation Bool Unit (fun _ => 2) _ _ 2 (by decide) (by decide)
    (fun _ => 0) (by decide) (fun _ _ => none)
    [.declare false, .declare true, .make false 5, .handOff false (), .make true 6,
      .moveAssign true true, .pop true ()] 13 _ _ rfl
  obtain ⟨l, hfree, _, hunique, _⟩ := h
  refine ⟨_, _, l, rfl, ?_, hfree, hunique⟩
  exact hfree.1.unique (.cons (x := 1) (by decide) .nil)

end ConduitRuntime.Ownership
