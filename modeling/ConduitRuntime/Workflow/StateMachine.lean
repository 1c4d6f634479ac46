import ConduitRuntime.Foundations.KeyedFold
import ConduitRuntime.Pipeline.DispatchMeaning

/-! `deterministic_saga` in a pipeline. Its `on` is a template without a constraint, so the pipeline
finds it for the event's own type and for every type among its bases: each of them is a call with a
pointer to the same object. A definition's `transition` may change the slot but only reads the
event. -/
namespace ConduitRuntime.Workflow
open Memory Pipeline KeyedFold ShortCircuit
set_option autoImplicit false

variable {S D E A C H T : Type}

structure SagaSlot (S D : Type) where
  currentState : S
  data : D
  isActive : Bool

/-- The parameters of the template: for each event type how a workflow id is read from the object,
and what `transition` does with the three fields of the slot. -/
structure Saga (S D E T : Type) where
  maxConcurrentWorkflows : ℕ
  workflowId : T → E → BitVec 32
  transition : T → S → D → Bool → E → S × D × Bool

/-- The slots of all sagas of a pipeline, and the warnings that were printed. -/
structure SagaWorld (H S D : Type) where
  slots : H × ℕ → SagaSlot S D
  warnings : List (H × BitVec 32)

section Model
variable [DecidableEq H] (saga : H → Saga S D E T)

def SagaSlot.next (saga : Saga S D E T) (t : T) (ev : E) (slot : SagaSlot S D) : SagaSlot S D :=
  let (currentState, data, isActive) :=
    saga.transition t slot.currentState slot.data slot.isActive ev
  ⟨currentState, data, isActive⟩

/-- `deterministic_saga::on` with an event. -/
def SagaWorld.on (w : SagaWorld H S D) (h : H) (t : T) (ev : E) : SagaWorld H S D :=
  let id := (saga h).workflowId t ev
  if id.toNat ≥ (saga h).maxConcurrentWorkflows then { w with warnings := w.warnings ++ [(h, id)] }
  else
    let slot := w.slots (h, id.toNat)
    { w with slots := Function.update w.slots (h, id.toNat) (slot.next (saga h) t ev) }

def sagaOn (content : A → E) (h : H) (t : T) : Overload (SagaWorld H S D) A C := fun w p =>
  match p.ptr with
  | none => (w, p, true)
  | some a => (w.on saga h t (content a), p, true)

/-- Deleters work on pools, which no saga sees. -/
def sagaPipeline (content : A → E) : Handlers (SagaWorld H S D) A C H T where
  on h t := some (sagaOn saga content h t)
  delete w _ := w

/-- An event that arrives: a pointer, which may be null, and its type with the bases. -/
structure Arrival (A C T : Type) where
  ev : EventPtr A C
  tree : TypeTree T

variable [DecidableEq T]

def dispatchEach (content : A → E) (handlers : List H) (w : SagaWorld H S D)
    (arrivals : List (Arrival A C T)) : SagaWorld H S D :=
  arrivals.foldl (fun w x =>
    (dispatch (sagaPipeline saga content) x.tree handlers ⟨w, x.ev, []⟩).world) w

end Model

/-! ## One dispatch -/

section Dispatch
variable [DecidableEq H] [DecidableEq T] (saga : H → Saga S D E T) (content : A → E)

/-- What one event does to the sagas of a pipeline: for each handler a call for each type, bases
first. -/
def Arrival.calls (handlers : List H) (x : Arrival A C T) : List (H × T × E) :=
  match x.ev.ptr with
  | none => []
  | some a => handlers.flatMap fun h => (postOrder x.tree).map fun t => (h, t, content a)

theorem referenceCall_saga (event : T) (c : H × T) {a : A} (s : Run (SagaWorld H S D) A C H T)
    (hs : s.ev.ptr = some a) :
    ∃ calls, referenceCall (sagaPipeline saga content) event c s =
      (⟨s.world.on saga c.1 c.2 (content a), s.ev, calls⟩, true) := by
  simp only [referenceCall, sagaPipeline, sagaOn]
  split
  · simp [hs]
  · simp [hs, destroy_nonOwning]

theorem all_saga (event : T) (cs : List (H × T)) {a : A} (s : Run (SagaWorld H S D) A C H T)
    (hs : s.ev.ptr = some a) :
    ∃ calls, all (cs.map (referenceCall (sagaPipeline saga content) event)) s =
      (⟨cs.foldl (fun w c => w.on saga c.1 c.2 (content a)) s.world, s.ev, calls⟩, true) := by
  induction cs generalizing s with
  | nil => exact ⟨s.calls, rfl⟩
  | cons c cs ih =>
    obtain ⟨made, hcall⟩ := referenceCall_saga saga content event c s hs
    obtain ⟨calls, hall⟩ := ih ⟨s.world.on saga c.1 c.2 (content a), s.ev, made⟩ hs
    refine ⟨calls, ?_⟩
    rw [List.map_cons, all, andThen_of_true hcall, hall, List.foldl_cons]

/-- A pipeline of sagas makes all its calls and leaves the event with its owner. -/
theorem dispatch_saga (handlers : List H) (x : Arrival A C T) (w : SagaWorld H S D) :
    (dispatch (sagaPipeline saga content) x.tree handlers ⟨w, x.ev, []⟩).ev = x.ev ∧
    (dispatch (sagaPipeline saga content) x.tree handlers ⟨w, x.ev, []⟩).world =
      (x.calls content handlers).foldl (fun w c => w.on saga c.1 c.2.1 c.2.2) w := by
  cases hptr : x.ev.ptr with
  | none =>
    simp [dispatch, hptr, Arrival.calls]
  | some a =>
    have hall := dispatchAll_eq (sagaPipeline saga content) x.tree handlers
      (show (⟨w, x.ev, []⟩ : Run (SagaWorld H S D) A C H T).ev.ptr ≠ none by simp [hptr])
    obtain ⟨calls, hcalls⟩ := all_saga saga content x.tree.root
      (referenceCalls (sagaPipeline (A := A) (C := C) saga content) x.tree handlers)
        ⟨w, x.ev, []⟩ hptr
    rw [hcalls] at hall
    have hrun : dispatch (sagaPipeline saga content) x.tree handlers ⟨w, x.ev, []⟩ =
        (dispatchAll (sagaPipeline saga content) x.tree handlers ⟨w, x.ev, []⟩).1 := by
      simp [dispatch, hptr]
    rw [hrun, hall]
    refine ⟨rfl, ?_⟩
    have hsome : ∀ h : H, ((postOrder x.tree).filter fun t =>
        ((sagaPipeline (A := A) (C := C) saga content).on h t).isSome) = postOrder x.tree :=
      fun h => List.filter_eq_self.mpr fun _ _ => rfl
    simp only [referenceCalls, hsome, Arrival.calls, hptr, List.foldl_flatMap, List.foldl_map]

end Dispatch

/-! ## Sequences of events -/

section Machines
variable [DecidableEq H] (saga : H → Saga S D E T) (content : A → E)

/-- The slot a call works on, if its id is in bounds. -/
def slotOf (c : H × T × E) : Option (H × ℕ) :=
  let id := (saga c.1).workflowId c.2.1 c.2.2
  if id.toNat ≥ (saga c.1).maxConcurrentWorkflows then none else some (c.1, id.toNat)

def warningOf (c : H × T × E) : Option (H × BitVec 32) :=
  let id := (saga c.1).workflowId c.2.1 c.2.2
  if id.toNat ≥ (saga c.1).maxConcurrentWorkflows then some (c.1, id) else none

theorem foldl_on (cs : List (H × T × E)) (w : SagaWorld H S D) :
    (cs.foldl (fun w c => w.on saga c.1 c.2.1 c.2.2) w).slots =
        cs.foldl (applyAt (slotOf saga) fun c slot => slot.next (saga c.1) c.2.1 c.2.2) w.slots ∧
      (cs.foldl (fun w c => w.on saga c.1 c.2.1 c.2.2) w).warnings =
        w.warnings ++ cs.filterMap (warningOf saga) := by
  induction cs generalizing w with
  | nil => exact ⟨rfl, (List.append_nil _).symm⟩
  | cons c cs ih =>
    obtain ⟨hslots, hwarnings⟩ := ih (w.on saga c.1 c.2.1 c.2.2)
    simp only [List.foldl_cons]
    rw [hslots, hwarnings]
    by_cases hid : ((saga c.1).workflowId c.2.1 c.2.2).toNat ≥ (saga c.1).maxConcurrentWorkflows
    · simp [SagaWorld.on, applyAt, slotOf, warningOf, hid]
    · simp [SagaWorld.on, applyAt, slotOf, warningOf, hid]

theorem dispatchEach_eq [DecidableEq T] (handlers : List H) (w : SagaWorld H S D)
    (arrivals : List (Arrival A C T)) :
    dispatchEach saga content handlers w arrivals =
      (arrivals.flatMap fun x => x.calls content handlers).foldl
        (fun w c => w.on saga c.1 c.2.1 c.2.2) w := by
  unfold dispatchEach
  rw [List.foldl_flatMap]
  congr 1
  funext w x
  exact (dispatch_saga saga content handlers x w).2

/-- The types under which an event means the workflow `i`, bases first. -/
def Arrival.steps (saga : Saga S D E T) (i : ℕ) (x : Arrival A C T) : List (T × E) :=
  match x.ev.ptr with
  | none => []
  | some a =>
    ((postOrder x.tree).filter fun t => (saga.workflowId t (content a)).toNat = i).map
      fun t => (t, content a)

/-- The ids of an event that are out of bounds. -/
def Arrival.rejected (saga : Saga S D E T) (x : Arrival A C T) : List (BitVec 32) :=
  match x.ev.ptr with
  | none => []
  | some a =>
    ((postOrder x.tree).map fun t => saga.workflowId t (content a)).filter
      fun id => id.toNat ≥ saga.maxConcurrentWorkflows

variable {handlers : List H} {h : H}

/-- Of the calls of one event those for the slot `i` of one saga. -/
theorem calls_slot (hnodup : handlers.Nodup) (hh : h ∈ handlers) {i : ℕ}
    (hi : i < (saga h).maxConcurrentWorkflows) (x : Arrival A C T) :
    (x.calls content handlers).filter (fun c => slotOf saga c = some (h, i)) =
      (x.steps content (saga h) i).map fun c => (h, c) := by
  unfold Arrival.calls Arrival.steps
  cases x.ev.ptr with
  | none => rfl
  | some a =>
    simp only
    rw [List.filter_flatMap, flatMap_of_only hnodup hh]
    · rw [List.filter_map, List.map_map]
      congr 1
      apply List.filter_congr
      intro t _
      simp only [slotOf, Function.comp, decide_eq_decide]
      split
      · constructor
        · intro hfalse
          cases hfalse
        · intro hid
          omega
      · simp
    · intro h' hne
      apply List.filter_eq_nil_iff.mpr
      intro c hc
      obtain ⟨t, -, rfl⟩ := List.mem_map.mp hc
      simp only [slotOf, decide_eq_true_eq]
      split
      · simp
      · intro heq
        cases heq
        exact hne rfl

theorem calls_warnings (hnodup : handlers.Nodup) (hh : h ∈ handlers) (x : Arrival A C T) :
    ((x.calls content handlers).filterMap (warningOf saga)).filter (fun c => c.1 = h) =
      (x.rejected content (saga h)).map fun id => (h, id) := by
  unfold Arrival.calls Arrival.rejected
  cases x.ev.ptr with
  | none => rfl
  | some a =>
    simp only
    rw [List.filterMap_flatMap, List.filter_flatMap, flatMap_of_only hnodup hh]
    · induction postOrder x.tree with
      | nil => rfl
      | cons t ts ih =>
        by_cases hid : ((saga h).workflowId t (content a)).toNat ≥ (saga h).maxConcurrentWorkflows
        · simpa [warningOf, hid] using ih
        · simpa [warningOf, hid] using ih
    · intro h' hne
      apply List.filter_eq_nil_iff.mpr
      intro c hc
      obtain ⟨d, hd, hwarn⟩ := List.mem_filterMap.mp hc
      obtain ⟨t, -, rfl⟩ := List.mem_map.mp hd
      simp only [warningOf] at hwarn
      split at hwarn
      · cases hwarn
        simpa using hne
      · cases hwarn

/-- A pipeline of sagas is a family of independent machines: the slot `i` of a saga has gone through
the transitions of the events that mean workflow `i`, in the order of their arrival and for each
event once for every type it has, bases first; a slot out of bounds is never reached, its events are
warned about, and every event stays with its owner. -/
theorem saga_machines [DecidableEq T] (hnodup : handlers.Nodup) (hh : h ∈ handlers)
    (w : SagaWorld H S D) (arrivals : List (Arrival A C T)) :
    (∀ i, (dispatchEach saga content handlers w arrivals).slots (h, i) =
      if i < (saga h).maxConcurrentWorkflows then
        (arrivals.flatMap fun x => x.steps content (saga h) i).foldl
          (fun slot c => slot.next (saga h) c.1 c.2) (w.slots (h, i))
      else w.slots (h, i)) ∧
    (dispatchEach saga content handlers w arrivals).warnings.filter (fun c => c.1 = h) =
      w.warnings.filter (fun c => c.1 = h) ++
        (arrivals.flatMap fun x => x.rejected content (saga h)).map (fun id => (h, id)) ∧
    ∀ x : Arrival A C T, ∀ w,
      (dispatch (sagaPipeline saga content) x.tree handlers ⟨w, x.ev, []⟩).ev = x.ev := by
  rw [dispatchEach_eq]
  obtain ⟨hslots, hwarnings⟩ := foldl_on saga (arrivals.flatMap fun x => x.calls content handlers) w
  rw [hslots, hwarnings]
  refine ⟨?_, ?_, fun x w => (dispatch_saga saga content handlers x w).1⟩
  · intro i
    rw [foldl_applyAt]
    split_ifs with hi
    · rw [List.filter_flatMap]
      simp only [calls_slot saga content hnodup hh hi]
      rw [← List.map_flatMap, List.foldl_map]
    · have hnone : ((arrivals.flatMap fun x => x.calls content handlers).filter
          fun c => slotOf saga c = some (h, i)) = [] := by
        apply List.filter_eq_nil_iff.mpr
        intro c _ hmem
        have hslot := of_decide_eq_true hmem
        simp only [slotOf] at hslot
        split at hslot
        · cases hslot
        · cases hslot
          omega
      rw [hnone]
      rfl
  · rw [List.filter_append, List.filterMap_flatMap, List.filter_flatMap]
    simp only [calls_warnings saga content hnodup hh]
    rw [← List.map_flatMap]

end Machines

/-- Orders count their events; a type 1 event is a type 0 event, its base. -/
def countingSaga : Saga ℕ Unit (BitVec 32) ℕ where
  maxConcurrentWorkflows := 4
  workflowId _ ev := ev
  transition _ state _ _ _ := (state + 1, (), true)

def threeArrivals : List (Arrival (BitVec 32) Unit ℕ) :=
  [⟨⟨some 2, none, none⟩, .node 1 [.node 0 []]⟩, ⟨⟨some 9, none, none⟩, .node 0 []⟩,
    ⟨⟨some 2, none, none⟩, .node 0 []⟩]

def noOrders : SagaWorld Unit ℕ Unit := ⟨fun _ => ⟨0, (), false⟩, []⟩

/-- At one saga an event with a base counts twice, one without once, and the id 9 is out of bounds.
-/
theorem saga_machines_three_events :
    ((dispatchEach (fun _ : Unit => countingSaga) id [()] noOrders threeArrivals).slots
      ((), 2)).currentState = 3 ∧
    (dispatchEach (fun _ : Unit => countingSaga) id [()] noOrders threeArrivals).warnings.filter
      (fun c => c.1 = ()) = [((), 9)] := by
  obtain ⟨hslots, hwarnings, -⟩ := saga_machines (fun _ : Unit => countingSaga) id
    (List.nodup_singleton ()) (List.mem_singleton_self ()) noOrders threeArrivals
  refine ⟨?_, hwarnings⟩
  rw [hslots 2]
  rfl

end ConduitRuntime.Workflow
