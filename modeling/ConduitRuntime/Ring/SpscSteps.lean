import ConduitRuntime.Foundations.Execution
import ConduitRuntime.Ring.Conduit

/-! One producer thread and one consumer thread on a `conduit`, one load or store at a time. A
thread's control names the operation it performs next and carries the local variables it has
filled so far; comparisons and returns happen in the step of the load or store before them. -/
namespace ConduitRuntime.Ring
open CyclicWindow Execution Memory
set_option autoImplicit false

/-- Where the producer is inside `push(ptr)`. -/
inductive ProducerPc (A : Type)
  | idle
  | loadWrite (ptr : Option A)
  | loadRead (ptr : Option A) (currentWrite : ℕ)
  | writeSlot (ptr : Option A) (currentWrite : ℕ)
  | storeWrite (ptr : Option A) (currentWrite : ℕ)

/-- Where the consumer is inside `pop(p)`. -/
inductive ConsumerPc (A : Type)
  | idle
  | loadRead
  | loadWrite (currentRead : ℕ)
  | readSlot (currentRead : ℕ)
  | storeRead (currentRead : ℕ) (ptr : Option A)

structure Spsc (A : Type) (size : ℕ) where
  conduit : Conduit A size
  producer : ProducerPc A
  consumer : ConsumerPc A

inductive SpscAction (A : Type)
  | callPush (ptr : Option A)
  | callPop
  | producer
  | consumer

/-- What a step lets the two callers see. -/
inductive SpscEvent (A : Type)
  | silent
  | pushReturned (ptr : Option A) (accepted : Bool)
  | popReturned (ptr : Option A)

section Step
variable {A : Type} {size : ℕ}

def producerStep (s : Spsc A size) : Option (Spsc A size × SpscEvent A) :=
  match s.producer with
  | .idle => none
  | .loadWrite ptr => some ({ s with producer := .loadRead ptr s.conduit.writeIdx }, .silent)
  | .loadRead ptr currentWrite =>
    if (currentWrite + 1) % size = s.conduit.readIdx then
      some ({ s with producer := .idle }, .pushReturned ptr false)
    else some ({ s with producer := .writeSlot ptr currentWrite }, .silent)
  | .writeSlot ptr currentWrite =>
    some ({ s with conduit := s.conduit.writeSlot currentWrite ptr,
                   producer := .storeWrite ptr currentWrite }, .silent)
  | .storeWrite ptr currentWrite =>
    some ({ s with conduit := s.conduit.storeWrite currentWrite, producer := .idle },
      .pushReturned ptr true)

def consumerStep (s : Spsc A size) : Option (Spsc A size × SpscEvent A) :=
  match s.consumer with
  | .idle => none
  | .loadRead => some ({ s with consumer := .loadWrite s.conduit.readIdx }, .silent)
  | .loadWrite currentRead =>
    if currentRead = s.conduit.writeIdx then
      some ({ s with consumer := .idle }, .popReturned none)
    else some ({ s with consumer := .readSlot currentRead }, .silent)
  | .readSlot currentRead =>
    some ({ s with consumer := .storeRead currentRead (s.conduit.ring currentRead) }, .silent)
  | .storeRead currentRead ptr =>
    some ({ s with conduit := s.conduit.storeRead currentRead, consumer := .idle },
      .popReturned ptr)

/-- One step of the pair; a call starts only when its thread is idle. -/
def spscStep (s : Spsc A size) : SpscAction A → Option (Spsc A size × SpscEvent A)
  | .callPush ptr =>
    match s.producer with
    | .idle => some ({ s with producer := .loadWrite ptr }, .silent)
    | _ => none
  | .callPop =>
    match s.consumer with
    | .idle => some ({ s with consumer := .loadRead }, .silent)
    | _ => none
  | .producer => producerStep s
  | .consumer => consumerStep s

def spscInit (hsize : 0 < size) (ring : ℕ → Option A) : Spsc A size :=
  ⟨.fresh hsize ring, .idle, .idle⟩

/-- The producer pushes non-null pointers only. -/
def NonNullPush (_ : Spsc A size) : SpscAction A → Prop
  | .callPush none => False
  | _ => True

instance (s : Spsc A size) (a : SpscAction A) : Decidable (NonNullPush s a) :=
  match a with
  | .callPush none => isFalse id
  | .callPush (some _) => isTrue trivial
  | .callPop => isTrue trivial
  | .producer => isTrue trivial
  | .consumer => isTrue trivial

/-- The pointers whose push stored `write_idx_`, in order. -/
def accepted : List (SpscEvent A) → List A
  | [] => []
  | .pushReturned ptr true :: es => ptr.toList ++ accepted es
  | _ :: es => accepted es

/-- The non-null pointers `pop` returned, in order. -/
def popped : List (SpscEvent A) → List A
  | [] => []
  | .popReturned ptr :: es => ptr.toList ++ popped es
  | _ :: es => popped es

/-! ## Whole calls are their steps run alone -/

/-- `push` is the producer's four steps with no consumer step between them. -/
theorem push_steps (s : Spsc A size) (h : s.producer = .idle) (ptr : Option A) :
    let t : Spsc A size := { s with conduit := (s.conduit.push ptr).1 }
    Exec spscStep (fun _ _ => True) s (if (s.conduit.push ptr).2 then
      [.silent, .silent, .silent, .silent, .pushReturned ptr true]
      else [.silent, .silent, .pushReturned ptr false]) t := by
  obtain ⟨c, p, k⟩ := s
  subst h
  have h1 : Exec spscStep (fun _ _ => True) ⟨c, .idle, k⟩ [SpscEvent.silent]
      ⟨c, .loadWrite ptr, k⟩ := Exec.nil.snoc (a := .callPush ptr) trivial rfl
  have h2 := h1.snoc (a := .producer) trivial (show spscStep _ _ =
    some (⟨c, .loadRead ptr c.writeIdx, k⟩, .silent) from rfl)
  by_cases hfull : (c.writeIdx + 1) % size = c.readIdx
  · have h3 := h2.snoc (a := .producer) trivial (show spscStep _ _ =
      some (⟨c, .idle, k⟩, .pushReturned ptr false) by simp [spscStep, producerStep, hfull])
    simpa [Conduit.push, hfull] using h3
  · have h3 := h2.snoc (a := .producer) trivial (show spscStep _ _ =
      some (⟨c, .writeSlot ptr c.writeIdx, k⟩, .silent) by simp [spscStep, producerStep, hfull])
    have h4 := h3.snoc (a := .producer) trivial (show spscStep _ _ =
      some (⟨c.writeSlot c.writeIdx ptr, .storeWrite ptr c.writeIdx, k⟩, .silent) from rfl)
    have h5 := h4.snoc (a := .producer) trivial (show spscStep _ _ =
      some (⟨(c.writeSlot c.writeIdx ptr).storeWrite c.writeIdx, .idle, k⟩,
        .pushReturned ptr true) from rfl)
    simpa [Conduit.push, hfull] using h5

/-- `pop` is the consumer's four steps with no producer step between them. -/
theorem pop_steps {C : Type} (s : Spsc A size) (h : s.consumer = .idle) (p : C) :
    let t : Spsc A size := { s with conduit := (s.conduit.pop p).1 }
    Exec spscStep (fun _ _ => True) s (if s.conduit.readIdx = s.conduit.writeIdx then
      [.silent, .silent, .popReturned none]
      else [.silent, .silent, .silent, .silent, .popReturned (s.conduit.pop p).2.ptr]) t := by
  obtain ⟨c, q, k⟩ := s
  subst h
  have h1 : Exec spscStep (fun _ _ => True) ⟨c, q, .idle⟩ [SpscEvent.silent] ⟨c, q, .loadRead⟩ :=
    Exec.nil.snoc (a := .callPop) trivial rfl
  have h2 := h1.snoc (a := .consumer) trivial (show spscStep _ _ =
    some (⟨c, q, .loadWrite c.readIdx⟩, .silent) from rfl)
  by_cases hempty : c.readIdx = c.writeIdx
  · have h3 := h2.snoc (a := .consumer) trivial (show spscStep _ _ =
      some (⟨c, q, .idle⟩, .popReturned none) by simp [spscStep, consumerStep, hempty])
    simpa [Conduit.pop, hempty] using h3
  · have h3 := h2.snoc (a := .consumer) trivial (show spscStep _ _ =
      some (⟨c, q, .readSlot c.readIdx⟩, .silent) by simp [spscStep, consumerStep, hempty])
    have h4 := h3.snoc (a := .consumer) trivial (show spscStep _ _ =
      some (⟨c, q, .storeRead c.readIdx (c.ring c.readIdx)⟩, .silent) from rfl)
    have h5 := h4.snoc (a := .consumer) trivial (show spscStep _ _ =
      some (⟨c.storeRead c.readIdx, q, .idle⟩, .popReturned (c.ring c.readIdx)) from rfl)
    simpa [Conduit.pop, hempty] using h5

end Step

end ConduitRuntime.Ring
