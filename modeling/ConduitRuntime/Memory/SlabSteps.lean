import ConduitRuntime.Memory.Handover
import ConduitRuntime.Memory.Slab
import Mathlib.Data.Finset.Option

/-! Any number of threads inside `slab_allocator::allocate` and `deallocate`, one access to shared
memory at a time. Between the exchange and the return of `allocate` the thread runs `T`'s
constructor, which may leave anything in `internal_index`, and then records the index;
`deallocate` runs the destructor, reads that index back and only then touches the free list. -/
namespace ConduitRuntime.Memory
open Execution TaggedWord
set_option autoImplicit false

/-- The access a thread performs next, with its local copies; `seen` is the ghost count at its
last reading of the head. -/
inductive SlabPc (π : Type)
  | idle
  | allocLoad (payload : π) (initial : BitVec 32)
  | allocRead (payload : π) (initial : BitVec 32) (head : BitVec 64) (seen : ℕ)
  | allocCas (payload : π) (initial : BitVec 32) (head : BitVec 64) (next : BitVec 32) (seen : ℕ)
  | construct (payload : π) (initial : BitVec 32) (index : BitVec 32)
  | record (index : BitVec 32)
  | destroy (ptr : ℕ) (remains : π)
  | freeIndex (ptr : ℕ)
  | freeLoad (index : BitVec 32)
  | freeWrite (index : BitVec 32) (head : BitVec 64) (seen : ℕ)
  | freeCas (index : BitVec 32) (head : BitVec 64) (seen : ℕ)

structure SlabSystem (τ π : Type) where
  slab : Slab π
  pc : τ → SlabPc π
  owned : τ → Finset ℕ
  casCount : ℕ

/-- `initial` is what the constructor leaves in `internal_index`, `remains` what the destructor
leaves of the object. -/
inductive SlabAction (τ π : Type)
  | callAllocate (t : τ) (payload : π) (initial : BitVec 32)
  | callDeallocate (t : τ) (ptr : Option ℕ) (remains : π)
  | write (t : τ) (ptr : ℕ) (payload : π)
  | pass (t u : τ) (ptr : ℕ)
  | step (t : τ) (spurious : Bool)

/-- `reserved` is the successful exchange inside `allocate`, `allocated` its return. -/
inductive SlabEvent (τ : Type)
  | silent
  | reserved (t : τ) (ptr : ℕ)
  | allocated (t : τ) (ptr : ℕ)
  | exhausted (t : τ)
  | freed (t : τ) (ptr : ℕ)

section Steps
variable {τ π : Type} [DecidableEq τ]

def SlabSystem.setPc (s : SlabSystem τ π) (t : τ) (pc : SlabPc π) : SlabSystem τ π :=
  { s with pc := Function.update s.pc t pc }

def SlabSystem.setSlot (s : SlabSystem τ π) (i : ℕ) (slot : Slot π) : SlabSystem τ π :=
  { s with slab := { s.slab with memory := Function.update s.slab.memory i slot } }

/-- A successful exchange. -/
def SlabSystem.swing (s : SlabSystem τ π) (head : BitVec 64) : SlabSystem τ π :=
  { s with slab := { s.slab with freeHead := head }, casCount := s.casCount + 1 }

/-- `allocate` has just read the head. -/
def slabHead (s : SlabSystem τ π) (t : τ) (payload : π) (initial : BitVec 32) :
    SlabSystem τ π × SlabEvent τ :=
  if (unpack s.slab.freeHead).2 = 0xFFFFFFFF#32 then (s.setPc t .idle, .exhausted t)
  else (s.setPc t (.allocRead payload initial s.slab.freeHead s.casCount), .silent)

/-- The next access of the thread `t`, whose control is the last argument. -/
def slabThread (s : SlabSystem τ π) (t : τ) (spurious : Bool) :
    SlabPc π → Option (SlabSystem τ π × SlabEvent τ)
  | .idle => none
  | .allocLoad payload initial => some (slabHead s t payload initial)
  | .allocRead payload initial head seen =>
    let next := (s.slab.memory (unpack head).2.toNat).nextFree
    some (s.setPc t (.allocCas payload initial head next seen), .silent)
  | .allocCas payload initial head next _ =>
    if spurious = false ∧ s.slab.freeHead = head then
      some ((s.swing (pack ((unpack head).1 + 1) next)).setPc t
        (.construct payload initial (unpack head).2), .reserved t (unpack head).2.toNat)
    else some (slabHead s t payload initial)
  | .construct payload initial index =>
    let slot := s.slab.memory index.toNat
    some ((s.setSlot index.toNat { slot with payload := payload, internalIndex := initial }).setPc t
      (.record index), .silent)
  | .record index =>
    let slot := s.slab.memory index.toNat
    let returned := s.setSlot index.toNat { slot with internalIndex := index }
    some ({ returned with
      owned := Function.update s.owned t (insert index.toNat (s.owned t)) }.setPc t .idle,
      .allocated t index.toNat)
  | .destroy ptr remains =>
    some ((s.setSlot ptr { s.slab.memory ptr with payload := remains }).setPc t (.freeIndex ptr),
      .silent)
  | .freeIndex ptr => some (s.setPc t (.freeLoad (s.slab.memory ptr).internalIndex), .silent)
  | .freeLoad index => some (s.setPc t (.freeWrite index s.slab.freeHead s.casCount), .silent)
  | .freeWrite index head seen =>
    let slot := s.slab.memory index.toNat
    some ((s.setSlot index.toNat { slot with nextFree := (unpack head).2 }).setPc t
      (.freeCas index head seen), .silent)
  | .freeCas index head _ =>
    if spurious = false ∧ s.slab.freeHead = head then
      some ((s.swing (pack ((unpack head).1 + 1) index)).setPc t .idle, .freed t index.toNat)
    else some (s.setPc t (.freeWrite index s.slab.freeHead s.casCount), .silent)

/-- Calls start on idle threads; a thread deallocates, writes and passes only what it owns. -/
def slabStep (s : SlabSystem τ π) : SlabAction τ π → Option (SlabSystem τ π × SlabEvent τ)
  | .callAllocate t payload initial =>
    match s.pc t with
    | .idle => some (s.setPc t (.allocLoad payload initial), .silent)
    | _ => none
  | .callDeallocate t none _ =>
    match s.pc t with
    | .idle => some (s, .silent)
    | _ => none
  | .callDeallocate t (some ptr) remains =>
    match s.pc t with
    | .idle =>
      if ptr ∈ s.owned t then
        some ({ s with owned := Function.update s.owned t ((s.owned t).erase ptr) }.setPc t
          (.destroy ptr remains), .silent)
      else none
    | _ => none
  | .write t ptr payload =>
    if ptr ∈ s.owned t then some ({ s with slab := s.slab.writePayload ptr payload }, .silent)
    else none
  | .pass t u ptr =>
    if ptr ∈ s.owned t then some ({ s with owned := passOwned s.owned t u ptr }, .silent) else none
  | .step t spurious => slabThread s t spurious (s.pc t)

def slabInit (capacity : ℕ) (memory : ℕ → Slot π) : SlabSystem τ π where
  slab := .init capacity memory
  pc _ := .idle
  owned _ := ∅
  casCount := 0

/-- The ghost count of a thread about to compare-exchange. -/
def SlabPc.casSeen : SlabPc π → Option ℕ
  | .allocCas _ _ _ _ seen => some seen
  | .freeCas _ _ seen => some seen
  | _ => none

/-- Fewer than `2^32` exchanges succeed between a thread's last reading of the head and its next
compare-exchange. -/
def SlabFresh (s : SlabSystem τ π) : SlabAction τ π → Prop
  | .step t _ => ∀ seen ∈ (s.pc t).casSeen, s.casCount - seen < 2 ^ 32
  | _ => True

instance (s : SlabSystem τ π) (a : SlabAction τ π) : Decidable (SlabFresh s a) :=
  match a with
  | .step t _ => inferInstanceAs (Decidable (∀ seen ∈ (s.pc t).casSeen, s.casCount - seen < 2 ^ 32))
  | .callAllocate _ _ _ => isTrue trivial
  | .callDeallocate _ _ _ => isTrue trivial
  | .write _ _ _ => isTrue trivial
  | .pass _ _ _ => isTrue trivial

/-! ## Whole calls are their steps run alone -/

@[simp] theorem slab_setPc_self (s : SlabSystem τ π) (t : τ) (pc : SlabPc π) :
    (s.setPc t pc).pc t = pc := by
  simp [SlabSystem.setPc]

@[simp] theorem slab_setPc_slab (s : SlabSystem τ π) (t : τ) (pc : SlabPc π) :
    (s.setPc t pc).slab = s.slab := rfl

/-- One more step of a thread that runs alone. -/
theorem step_alone {s₀ s u : SlabSystem τ π} {t : τ} {pc : SlabPc π} {e : SlabEvent τ}
    {es : List (SlabEvent τ)} (hexec : Exec slabStep (fun _ _ => True) s₀ es s)
    (hpc : s.pc t = pc) (h : slabThread s t false pc = some (u, e)) :
    Exec slabStep (fun _ _ => True) s₀ (es ++ [e]) u := by
  refine hexec.snoc (a := .step t false) trivial ?_
  rw [slabStep, hpc]
  exact h

theorem slab_allocate_steps (s : SlabSystem τ π) (t : τ) (hpc : s.pc t = .idle) (payload : π)
    (initial : BitVec 32) :
    ∃ es u, Exec slabStep (fun _ _ => True) s es u ∧ u.slab = (s.slab.allocate payload).1 := by
  have h1 : Exec slabStep (fun _ _ => True) s ([] ++ [.silent])
      (s.setPc t (.allocLoad payload initial)) :=
    Exec.nil.snoc (a := .callAllocate t payload initial) trivial (by simp [slabStep, hpc])
  by_cases he : (unpack s.slab.freeHead).2 = 0xFFFFFFFF#32
  · have h2 := step_alone h1 (slab_setPc_self _ _ _) (congrArg some (if_pos he))
    exact ⟨_, _, h2, by simp [Slab.allocate, he]⟩
  · have h2 := step_alone h1 (slab_setPc_self _ _ _) (congrArg some (if_neg he))
    have h3 := step_alone h2 (slab_setPc_self _ _ _) rfl
    have h4 := step_alone h3 (slab_setPc_self _ _ _) (if_pos ⟨rfl, rfl⟩)
    have h5 := step_alone h4 (slab_setPc_self _ _ _) rfl
    have h6 := step_alone h5 (slab_setPc_self _ _ _) rfl
    exact ⟨_, _, h6, by simp [Slab.allocate, he, SlabSystem.setSlot, SlabSystem.swing]⟩

theorem slab_deallocate_steps (s : SlabSystem τ π) (t : τ) (hpc : s.pc t = .idle) {ptr : ℕ}
    (hown : ptr ∈ s.owned t) (remains : π) :
    ∃ es u, Exec slabStep (fun _ _ => True) s es u ∧
      u.slab = (s.slab.writePayload ptr remains).deallocate (some ptr) := by
  have h1 : Exec slabStep (fun _ _ => True) s ([] ++ [.silent])
      ({ s with owned := Function.update s.owned t ((s.owned t).erase ptr) }.setPc t
        (.destroy ptr remains)) :=
    Exec.nil.snoc (a := .callDeallocate t (some ptr) remains) trivial
      (by simp [slabStep, hpc, hown])
  have h2 := step_alone h1 (slab_setPc_self _ _ _) rfl
  have h3 := step_alone h2 (slab_setPc_self _ _ _) rfl
  have h4 := step_alone h3 (slab_setPc_self _ _ _) rfl
  have h5 := step_alone h4 (slab_setPc_self _ _ _) rfl
  have h6 := step_alone h5 (slab_setPc_self _ _ _) (if_pos ⟨rfl, rfl⟩)
  exact ⟨_, _, h6, rfl⟩

end Steps

end ConduitRuntime.Memory
