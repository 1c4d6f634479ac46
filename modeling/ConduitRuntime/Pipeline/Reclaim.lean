import ConduitRuntime.Foundations.Execution
import ConduitRuntime.Memory.Pool
import ConduitRuntime.Pipeline.DispatchMeaning

/-! When a dispatch gives the event's cell back. Handlers that drop the event do so with `reset()`.
At the event's own type that frees the cell; on a view of a base it frees nothing, and the pipeline
then makes the owner forget the event as well. -/
namespace ConduitRuntime.Pipeline
open Execution Memory ShortCircuit
set_option autoImplicit false

variable {σ H T : Type}

/-! ## Handlers that keep or drop -/

inductive Reaction
  | keep (returned : Bool)
  | drop (returned : Bool)

/-- The state of handlers and program, the pool, and the cells freed so far, oldest first. -/
structure Heap (σ : Type) where
  user : σ
  pool : Pool
  freed : List ℕ

/-- `release_to_pool(ctx, ptr)`. -/
def Heap.release (w : Heap σ) : Option Unit × ℕ → Heap σ
  | (some (), i) => { w with pool := w.pool.free i, freed := w.freed ++ [i] }
  | (none, _) => w

/-- What a handler does with an event: it reads and changes its own state and the event's bytes,
and then keeps or drops the event. -/
def React (σ : Type) : Type := σ → BitVec 64 → σ × BitVec 64 × Reaction

def React.overload (react : React σ) : Overload (Heap σ) ℕ Unit := fun w p =>
  match p.ptr with
  | none => (w, p, true)
  | some i =>
    let (user, word, reaction) := react w.user (w.pool.memory i)
    let w := { w with user, pool := w.pool.writeNext i word }
    match reaction with
    | .keep returned => (w, p, returned)
    | .drop returned =>
      let (p', call) := p.reset
      (match call with
        | none => w
        | some call => w.release call, p', returned)

def cellHandlers (react : H → T → Option (React σ)) : Handlers (Heap σ) ℕ Unit H T where
  on h t := (react h t).map React.overload
  delete := Heap.release

/-- The handle `make` returns for the cell `i`. -/
def owner (i : ℕ) : EventPtr ℕ Unit := ⟨some i, some .releaseToPool, some ()⟩

/-- Some call for a type other than the event's own left its pointer null. -/
def BaseDrop (event : T) (calls : List (Call ℕ H T)) : Prop :=
  ∃ c ∈ calls, c.leftNull = true ∧ c.type ≠ event

instance [DecidableEq T] (event : T) (calls : List (Call ℕ H T)) :
    Decidable (BaseDrop event calls) :=
  inferInstanceAs (Decidable (∃ c ∈ calls, c.leftNull = true ∧ c.type ≠ event))

/-! ## Where the cell is during a dispatch -/

/-- The cell `i` is behind the event pointer, and nothing was freed since `freed`. -/
structure Owned (n i : ℕ) (l freed : List ℕ) (s : Run (Heap σ) ℕ Unit H T) : Prop where
  ev : s.ev = owner i
  list : s.world.pool.FreeList n l
  freed_eq : s.world.freed = freed

/-- The event pointer is null, and the free list and the frees are as given. -/
structure Gone (n : ℕ) (l freed : List ℕ) (s : Run (Heap σ) ℕ Unit H T) : Prop where
  null : s.ev.ptr = none
  list : s.world.pool.FreeList n l
  freed_eq : s.world.freed = freed

section Calls
variable {n i : ℕ} {l freed : List ℕ} {react : H → T → Option (React σ)} {event : T}
  {s : Run (Heap σ) ℕ Unit H T}

theorem baseDrop_append (event : T) (cs ds : List (Call ℕ H T)) :
    BaseDrop event (cs ++ ds) ↔ BaseDrop event cs ∨ BaseDrop event ds := by
  simp [BaseDrop, or_and_right, exists_or]

theorem not_baseDrop_of_kept {event : T} {cs : List (Call ℕ H T)}
    (h : ∀ c ∈ cs, c.leftNull = false) : ¬ BaseDrop event cs := by
  rintro ⟨c, hc, hnull, _⟩
  simp [h c hc] at hnull

theorem destroy_owner (w : Heap σ) (i : ℕ) : destroy (cellHandlers react) w (owner i) =
    { w with pool := w.pool.free i, freed := w.freed ++ [i] } := rfl

theorem destroy_null {p : EventPtr ℕ Unit} (h : p.ptr = none) (w : Heap σ) :
    destroy (cellHandlers react) w p = w := by
  simp [destroy, EventPtr.reset, EventPtr.deleterCall, h]

variable [DecidableEq T]

/-- One call keeps the event, frees its cell, or loses it. -/
theorem referenceCall_reclaim (hcap : n ≤ 2 ^ 32 - 1) (hi : i < n) (hnotin : i ∉ l)
    (h : Owned n i l freed s) (c : H × T) {s' : Run (Heap σ) ℕ Unit H T} {go : Bool}
    (hc : referenceCall (cellHandlers react) event c s = (s', go)) :
    ∃ made, s'.calls = s.calls ++ made ∧
      ((Owned n i l freed s' ∧ ¬ BaseDrop event made) ∨
      (go = false ∧ Gone n (i :: l) (freed ++ [i]) s' ∧ ¬ BaseDrop event made) ∨
      (go = false ∧ Gone n l freed s' ∧ BaseDrop event made)) := by
  obtain ⟨w, ev, calls⟩ := s
  obtain ⟨hev, hlist, hfreed⟩ := h
  dsimp only at hev hlist hfreed
  subst hev
  cases hr : react c.1 c.2 with
  | none =>
    have hon : (cellHandlers react).on c.1 c.2 = none := by simp [cellHandlers, hr]
    rw [referenceCall_none _ hon] at hc
    cases hc
    exact ⟨[], by simp, .inl ⟨⟨rfl, hlist, hfreed⟩, not_baseDrop_of_kept (by simp)⟩⟩
  | some f =>
    have hon : (cellHandlers react).on c.1 c.2 = some f.overload := by simp [cellHandlers, hr]
    rcases hf : f w.user (w.pool.memory i) with ⟨user, word, reaction⟩
    have hlist' : (w.pool.writeNext i word).FreeList n l :=
      Pool.writeNext_freeList hlist hnotin word
    by_cases hevent : event = c.2
    · cases reaction with
      | keep returned =>
        simp only [referenceCall, hon, React.overload, owner, hf, hevent, if_true] at hc
        cases hc
        exact ⟨_, rfl, .inl ⟨⟨rfl, hlist', hfreed⟩, not_baseDrop_of_kept (by simp)⟩⟩
      | drop returned =>
        simp only [referenceCall, hon, React.overload, owner, hf, hevent, if_true] at hc
        cases hc
        refine ⟨_, rfl, .inr (.inl ⟨by simp [EventPtr.reset], ⟨rfl, ?_, ?_⟩, ?_⟩)⟩
        · exact Pool.free_freeList hcap hlist' hi hnotin
        · simp [EventPtr.reset, EventPtr.deleterCall, Heap.release, hfreed]
        · simp [BaseDrop, hevent]
    · cases reaction with
      | keep returned =>
        simp only [referenceCall, hon, React.overload, owner, hf, hevent, if_false,
          EventPtr.nonOwning_ptr] at hc
        cases hc
        exact ⟨_, rfl, .inl ⟨⟨rfl, hlist', hfreed⟩, not_baseDrop_of_kept (by simp)⟩⟩
      | drop returned =>
        simp only [referenceCall, hon, React.overload, owner, hf, hevent, if_false,
          EventPtr.nonOwning_ptr] at hc
        cases hc
        refine ⟨_, rfl, .inr (.inr ⟨by simp [EventPtr.reset], ⟨rfl, hlist', hfreed⟩, ?_⟩)⟩
        exact ⟨_, List.mem_singleton.mpr rfl, rfl, Ne.symm hevent⟩

/-- A whole run keeps the event, frees its cell once, or loses it; it is lost exactly when a call
on a base dropped it. -/
theorem all_reclaim (hcap : n ≤ 2 ^ 32 - 1) (hi : i < n) (hnotin : i ∉ l)
    (h : Owned n i l freed s) (cs : List (H × T)) {s' : Run (Heap σ) ℕ Unit H T} {go : Bool}
    (hall : all (cs.map (referenceCall (cellHandlers react) event)) s = (s', go)) :
    ∃ made, s'.calls = s.calls ++ made ∧
      ((Owned n i l freed s' ∧ ¬ BaseDrop event made) ∨
      (Gone n (i :: l) (freed ++ [i]) s' ∧ ¬ BaseDrop event made) ∨
      (Gone n l freed s' ∧ BaseDrop event made)) := by
  induction cs generalizing s with
  | nil =>
    cases hall
    exact ⟨[], by simp, .inl ⟨h, not_baseDrop_of_kept (by simp)⟩⟩
  | cons c cs ih =>
    rcases hr : referenceCall (cellHandlers react) event c s with ⟨s₁, go₁⟩
    obtain ⟨made, hmade, hcase⟩ := referenceCall_reclaim hcap hi hnotin h c hr
    rw [List.map_cons, all] at hall
    rcases hcase with ⟨ho, hkept⟩ | ⟨hgo, hgone, hdrop⟩ | ⟨hgo, hgone, hdrop⟩
    · cases go₁ with
      | false =>
        rw [andThen_of_false hr] at hall
        cases hall
        exact ⟨made, hmade, .inl ⟨ho, hkept⟩⟩
      | true =>
        rw [andThen_of_true hr] at hall
        obtain ⟨more, hmore, hcase⟩ := ih ho hall
        refine ⟨made ++ more, by rw [hmore, hmade, List.append_assoc], ?_⟩
        simpa [baseDrop_append, hkept] using hcase
    · subst hgo
      rw [andThen_of_false hr] at hall
      cases hall
      exact ⟨made, hmade, .inr (.inl ⟨hgone, hdrop⟩)⟩
    · subst hgo
      rw [andThen_of_false hr] at hall
      cases hall
      exact ⟨made, hmade, .inr (.inr ⟨hgone, hdrop⟩)⟩

theorem boundSinkHandle_eq (P : Handlers σ ℕ Unit H T) (tree : TypeTree T) (handlers : List H)
    (s : Run σ ℕ Unit H T) :
    boundSinkHandle P tree handlers s = dispatchMove P tree handlers s := by
  cases hp : s.ev.ptr <;> simp [boundSinkHandle, dispatchMove, EventPtr.moveConstruct, dispatch, hp]

/-- The cell comes back exactly once, unless a call on a base dropped the event: then it never
does. -/
theorem dispatchMove_reclaim (hcap : n ≤ 2 ^ 32 - 1) (hi : i < n) (hnotin : i ∉ l) {w : Heap σ}
    (hlist : w.pool.FreeList n l) (tree : TypeTree T) (handlers : List H)
    {r : Run (Heap σ) ℕ Unit H T}
    (hr : dispatchMove (cellHandlers react) tree handlers ⟨w, owner i, []⟩ = r) :
    (¬ BaseDrop tree.root r.calls ∧ r.world.freed = w.freed ++ [i] ∧
      r.world.pool.FreeList n (i :: l)) ∨
    (BaseDrop tree.root r.calls ∧ r.world.freed = w.freed ∧ r.world.pool.FreeList n l) := by
  subst hr
  have hstart : Owned n i l w.freed (⟨w, owner i, []⟩ : Run (Heap σ) ℕ Unit H T) :=
    ⟨rfl, hlist, rfl⟩
  have hd : dispatch (cellHandlers react) tree handlers ⟨w, owner i, []⟩ =
      (all ((referenceCalls (cellHandlers react) tree handlers).map
        (referenceCall (cellHandlers react) tree.root)) ⟨w, owner i, []⟩).1 := by
    rw [← dispatchAll_eq _ tree handlers (by simp [owner])]
    rfl
  rcases hrun : all ((referenceCalls (cellHandlers react) tree handlers).map
    (referenceCall (cellHandlers react) tree.root)) ⟨w, owner i, []⟩ with ⟨s', go⟩
  rw [hrun] at hd
  have hmove : dispatchMove (cellHandlers react) tree handlers ⟨w, owner i, []⟩ =
      ⟨destroy (cellHandlers react) s'.world s'.ev, (owner i).cleared, s'.calls⟩ := by
    simp only [dispatchMove, EventPtr.moveConstruct, hd]
  obtain ⟨made, hmade, hcase⟩ := all_reclaim hcap hi hnotin hstart _ hrun
  rw [List.nil_append] at hmade
  rw [hmove, hmade]
  rcases hcase with ⟨ho, hdrop⟩ | ⟨hgone, hdrop⟩ | ⟨hgone, hdrop⟩
  · left
    rw [ho.ev, destroy_owner]
    exact ⟨hdrop, by rw [ho.freed_eq], Pool.free_freeList hcap ho.list hi hnotin⟩
  · left
    rw [destroy_null hgone.null]
    exact ⟨hdrop, hgone.freed_eq, hgone.list⟩
  · right
    rw [destroy_null hgone.null]
    exact ⟨hdrop, hgone.freed_eq, hgone.list⟩

end Calls

/-! ## A pool whose events are only made and dispatched -/

/-- The heap, and the cells of the events made and not yet dispatched. -/
structure Line (σ : Type) where
  heap : Heap σ
  held : List ℕ

/-- `viaSink` tells `bound_sink::handle` from `dispatch(event_ptr&&)`. -/
inductive LineAction (H : Type)
  | make (object : BitVec 64)
  | dispatch (k : ℕ) (viaSink : Bool) (handlers : List H)

inductive LineEvent
  | made (cell : Option ℕ)
  | dispatched (cell : ℕ)

section Lines
variable [DecidableEq T] (react : H → T → Option (React σ)) (tree : TypeTree T)

def deliver (viaSink : Bool) (handlers : List H) (w : Heap σ) (i : ℕ) : Run (Heap σ) ℕ Unit H T :=
  if viaSink then boundSinkHandle (cellHandlers react) tree handlers ⟨w, owner i, []⟩
  else dispatchMove (cellHandlers react) tree handlers ⟨w, owner i, []⟩

def lineStep (s : Line σ) : LineAction H → Option (Line σ × LineEvent)
  | .make object =>
    let (pool, p) := s.heap.pool.make () object
    some (⟨{ s.heap with pool }, s.held ++ p.ptr.toList⟩, .made p.ptr)
  | .dispatch k viaSink handlers =>
    match s.held[k]? with
    | none => none
    | some i =>
      some (⟨(deliver react tree viaSink handlers s.heap i).world, s.held.eraseIdx k⟩,
        .dispatched i)

/-- No call of the dispatch on a base drops the event. -/
def NoBaseDrop (s : Line σ) : LineAction H → Prop
  | .make _ => True
  | .dispatch k viaSink handlers => ∀ i, s.held[k]? = some i →
      ¬ BaseDrop tree.root (deliver react tree viaSink handlers s.heap i).calls

def lineInit (n : ℕ) (memory : ℕ → BitVec 64) (user : σ) : Line σ :=
  ⟨⟨user, Pool.init n memory, []⟩, []⟩

/-- No cell is lost: each is free or held by an event still to be dispatched. -/
def NoneLost (n : ℕ) (s : Line σ) : Prop :=
  ∃ l, s.heap.pool.FreeList n l ∧ (l ++ s.held).Perm (List.range n)

variable {react tree}

theorem deliver_reclaim {n i : ℕ} {l : List ℕ} (hcap : n ≤ 2 ^ 32 - 1) (hi : i < n)
    (hnotin : i ∉ l) {w : Heap σ} (hlist : w.pool.FreeList n l) (viaSink : Bool)
    (handlers : List H) {r : Run (Heap σ) ℕ Unit H T}
    (hr : deliver react tree viaSink handlers w i = r) :
    (¬ BaseDrop tree.root r.calls ∧ r.world.freed = w.freed ++ [i] ∧
      r.world.pool.FreeList n (i :: l)) ∨
    (BaseDrop tree.root r.calls ∧ r.world.freed = w.freed ∧ r.world.pool.FreeList n l) := by
  have hr' : dispatchMove (cellHandlers react) tree handlers ⟨w, owner i, []⟩ = r := by
    rw [← hr, deliver, boundSinkHandle_eq, ite_self]
  exact dispatchMove_reclaim hcap hi hnotin hlist tree handlers hr'

theorem lineStep_noneLost {n : ℕ} (hcap : n ≤ 2 ^ 32 - 1) {s s' : Line σ} {a : LineAction H}
    {ev : LineEvent} (h : NoneLost n s) (hok : NoBaseDrop react tree s a)
    (hs : lineStep react tree s a = some (s', ev)) : NoneLost n s' := by
  obtain ⟨l, hlist, hperm⟩ := h
  cases a with
  | make object =>
    simp only [lineStep, Option.some.injEq, Prod.mk.injEq] at hs
    obtain ⟨rfl, rfl⟩ := hs
    cases l with
    | nil =>
      refine ⟨[], ?_, ?_⟩
      · rw [Pool.make_of_nil () object hlist]
        exact hlist
      · rw [Pool.make_of_nil () object hlist]
        simpa using hperm
    | cons i l =>
      obtain ⟨hmade, hfree⟩ := Pool.make_of_cons () object hlist
      refine ⟨l, hfree, ?_⟩
      rw [hmade]
      refine List.Perm.trans ?_ hperm
      rw [← List.append_assoc]
      exact List.perm_append_comm
  | dispatch k viaSink handlers =>
    cases hk : s.held[k]? with
    | none => simp [lineStep, hk] at hs
    | some i =>
      simp only [lineStep, hk, Option.some.injEq, Prod.mk.injEq] at hs
      obtain ⟨rfl, rfl⟩ := hs
      obtain ⟨hlt, rfl⟩ := List.getElem?_eq_some_iff.mp hk
      have hnodup : (l ++ s.held).Nodup := hperm.nodup_iff.mpr List.nodup_range
      have hmem : s.held[k] ∈ s.held := List.getElem_mem hlt
      have hnotin : s.held[k] ∉ l := fun hl =>
        (List.nodup_append.mp hnodup).2.2 _ hl _ hmem rfl
      have hi : s.held[k] < n :=
        List.mem_range.mp (hperm.mem_iff.mp (List.mem_append.mpr (.inr hmem)))
      obtain ⟨_, _, hfree⟩ | ⟨hdrop, _⟩ := deliver_reclaim hcap hi hnotin hlist viaSink handlers
        (rfl : deliver react tree viaSink handlers s.heap s.held[k] = _)
      · refine ⟨_, hfree, List.Perm.trans ?_ hperm⟩
        rw [List.cons_append]
        refine List.perm_middle.symm.trans ?_
        exact List.Perm.append_left _ (List.getElem_cons_eraseIdx_perm hlt)
      · exact absurd hdrop (hok _ hk)

theorem init_noneLost {n : ℕ} (hpos : 1 ≤ n) (hcap : n ≤ 2 ^ 32 - 1) (memory : ℕ → BitVec 64)
    (user : σ) : NoneLost n (lineInit n memory user) :=
  ⟨List.range n, Pool.init_freeList hpos hcap memory, by simp [lineInit]⟩

/-- A pool from which no cell is lost runs out only when all its events are still to be
dispatched. -/
theorem NoneLost.make_none {n : ℕ} {s : Line σ} (h : NoneLost n s) {object : BitVec 64}
    (hnull : (s.heap.pool.make () object).2.ptr = none) : s.held.length = n := by
  obtain ⟨l, hlist, hperm⟩ := h
  cases l with
  | nil => simpa using hperm.length_eq
  | cons i l =>
    rw [(Pool.make_of_cons () object hlist).1] at hnull
    cases hnull

variable (react tree)

/-- A dispatch returns the event's cell exactly once if and only if no call on a base drops the
event; and in a run all of whose dispatches meet this, no cell is ever lost and `make` returns null
only while all cells belong to events still to be dispatched. -/
theorem dispatch_returns_cell {n : ℕ} (hpos : 1 ≤ n) (hcap : n ≤ 2 ^ 32 - 1) :
    (∀ (w : Heap σ) (l : List ℕ) (i : ℕ) (viaSink : Bool) (handlers : List H),
      w.pool.FreeList n l → i < n → i ∉ l →
      ((deliver react tree viaSink handlers w i).world.freed = w.freed ++ [i] ↔
        ¬ BaseDrop tree.root (deliver react tree viaSink handlers w i).calls)) ∧
    ∀ (memory : ℕ → BitVec 64) (user : σ) (es : List LineEvent) (s : Line σ),
      Exec (lineStep react tree) (NoBaseDrop react tree) (lineInit n memory user) es s →
      NoneLost n s ∧
        ∀ object, (s.heap.pool.make () object).2.ptr = none → s.held.length = n := by
  refine ⟨fun w l i viaSink handlers hlist hi hnotin => ?_, fun memory user es s h => ?_⟩
  · obtain ⟨hdrop, hfreed, _⟩ | ⟨hdrop, hfreed, _⟩ := deliver_reclaim hcap hi hnotin hlist viaSink
      handlers (rfl : deliver react tree viaSink handlers w i = _)
    · exact iff_of_true hfreed hdrop
    · refine iff_of_false (fun he => ?_) (not_not_intro hdrop)
      rw [hfreed] at he
      simp at he
  · have hinv : NoneLost n s :=
      h.invariant (fun _ s => NoneLost n s) (init_noneLost hpos hcap memory user)
        fun _ _ _ _ _ hs hok hstep => lineStep_noneLost hcap hs hok hstep
    exact ⟨hinv, fun object hnull => hinv.make_none hnull⟩

end Lines

/-- The only handler accepts the base 1 of the event type 0 and drops or keeps what it is given. -/
def onBase (reaction : Reaction) : Unit → ℕ → Option (React Unit) := fun _ t =>
  if t = 1 then some fun u word => (u, word, reaction) else none

/-- A pool of one cell: a handler that keeps the event gets it freed, and the cell is there again.
-/
theorem dispatch_returns_cell_kept :
    (deliver (onBase (.keep false)) (.node 0 [.node 1 []]) false [()]
      ⟨(), (Pool.init 1 fun _ => 0).make () 5 |>.1, []⟩ 0).world.freed = [0] := by
  have h := ((dispatch_returns_cell (onBase (.keep false)) (.node 0 [.node 1 []])
    (show 1 ≤ 1 by decide) (by decide)).1
    ⟨(), (Pool.init 1 fun _ => 0).make () 5 |>.1, []⟩ [] 0 false [()]
    (Pool.make_of_cons () 5 (Pool.init_freeList (by decide) (by decide) fun _ => 0)).2
    (by decide) (by simp)).mpr
  exact h (by decide)

/-- The handler drops the base view: the cell of the one event is never freed, and the pool is
empty for good. -/
theorem base_drop_leaks :
    (deliver (onBase (.drop true)) (.node 0 [.node 1 []]) false [()]
      ⟨(), (Pool.init 1 fun _ => 0).make () 5 |>.1, []⟩ 0).world.freed = [] ∧
    ((deliver (onBase (.drop true)) (.node 0 [.node 1 []]) false [()]
      ⟨(), (Pool.init 1 fun _ => 0).make () 5 |>.1, []⟩ 0).world.pool.make () 5).2.ptr = none := by
  exact ⟨rfl, rfl⟩

end ConduitRuntime.Pipeline
