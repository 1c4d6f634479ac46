import ConduitRuntime.Foundations.Execution
import ConduitRuntime.Memory.Pinned
import Mathlib.Data.Finset.Basic

/-! Any number of threads inside `allocate` and `deallocate` of one pinned slab, one access to
shared memory at a time: the load of `head_index_`, the plain read or write of a block's first
four bytes, the compare-exchange, and the counting in `free_count_`. -/
namespace ConduitRuntime.Memory
open Execution
set_option autoImplicit false

/-- The access a thread performs next, with its local copies. -/
inductive PinnedPc
  | idle
  | allocLoad
  | allocRead (currentHead : BitVec 32)
  | allocCas (currentHead nextHead : BitVec 32)
  | allocCount (block : ℕ)
  | freeLoad (block : ℕ)
  | freeWrite (block : ℕ) (currentHead : BitVec 32)
  | freeCas (block : ℕ) (currentHead : BitVec 32)
  | freeCount
  deriving DecidableEq

/-- The block a thread inside `deallocate` still has to put on the list. -/
def PinnedPc.held : PinnedPc → Option ℕ
  | .freeLoad block => some block
  | .freeWrite block _ => some block
  | .freeCas block _ => some block
  | _ => none

/-- The expected head and the new head of a pending exchange of `allocate`. -/
def PinnedPc.exchange : PinnedPc → Option (BitVec 32 × BitVec 32)
  | .allocCas currentHead nextHead => some (currentHead, nextHead)
  | _ => none

structure PinnedSystem (τ : Type) where
  slab : PinnedSlab
  pc : τ → PinnedPc
  owned : τ → Finset ℕ

/-- `write` is an owner's store into its block, by `EventType()` or by the user; `spurious` makes a
weak exchange fail although the head is the expected one. -/
inductive PinnedAction (τ : Type)
  | callAllocate (t : τ)
  | callDeallocate (t : τ) (block : ℕ)
  | write (t : τ) (block : ℕ) (word : BitVec 32)
  | step (t : τ) (spurious : Bool)

inductive PinnedEvent (τ : Type)
  | silent
  | allocated (t : τ) (block : ℕ)
  | exhausted (t : τ)
  | deallocated (t : τ)

section Steps
variable {τ : Type} [DecidableEq τ]

def PinnedSystem.setPc (s : PinnedSystem τ) (t : τ) (pc : PinnedPc) : PinnedSystem τ :=
  { s with pc := Function.update s.pc t pc }

/-- `allocate` has just read the head: it returns null at the end of the list, else goes on. -/
def allocHead (s : PinnedSystem τ) (t : τ) : PinnedSystem τ × PinnedEvent τ :=
  if s.slab.headIndex = 0xFFFFFFFF#32 then (s.setPc t .idle, .exhausted t)
  else (s.setPc t (.allocRead s.slab.headIndex), .silent)

/-- The successful exchange of `allocate`: from here on the block belongs to `t`. -/
def allocTake (s : PinnedSystem τ) (t : τ) (currentHead nextHead : BitVec 32) : PinnedSystem τ where
  slab := { s.slab with headIndex := nextHead }
  pc := Function.update s.pc t (.allocCount currentHead.toNat)
  owned := Function.update s.owned t (insert currentHead.toNat (s.owned t))

/-- The successful exchange of `deallocate`. -/
def freeLink (s : PinnedSystem τ) (t : τ) (block : ℕ) : PinnedSystem τ where
  slab := { s.slab with headIndex := BitVec.ofNat 32 block }
  pc := Function.update s.pc t .freeCount
  owned := s.owned

def PinnedSystem.threadStep (s : PinnedSystem τ) (t : τ) (spurious : Bool) :
    Option (PinnedSystem τ × PinnedEvent τ) :=
  match s.pc t with
  | .idle => none
  | .allocLoad => some (allocHead s t)
  | .allocRead currentHead =>
    some (s.setPc t (.allocCas currentHead (s.slab.memory currentHead.toNat)), .silent)
  | .allocCas currentHead nextHead =>
    if spurious = false ∧ s.slab.headIndex = currentHead then
      some (allocTake s t currentHead nextHead, .silent)
    else some (allocHead s t)
  | .allocCount block =>
    some ({ s with slab := { s.slab with freeCount := s.slab.freeCount - 1 } }.setPc t .idle,
      .allocated t block)
  | .freeLoad block => some (s.setPc t (.freeWrite block s.slab.headIndex), .silent)
  | .freeWrite block currentHead =>
    some ({ s with slab := s.slab.writeWord block currentHead }.setPc t
      (.freeCas block currentHead), .silent)
  | .freeCas block currentHead =>
    if spurious = false ∧ s.slab.headIndex = currentHead then some (freeLink s t block, .silent)
    else some (s.setPc t (.freeWrite block s.slab.headIndex), .silent)
  | .freeCount =>
    some ({ s with slab := { s.slab with freeCount := s.slab.freeCount + 1 } }.setPc t .idle,
      .deallocated t)

/-- Calls start on idle threads; a thread deallocates and writes only blocks it owns. -/
def pinnedStep (s : PinnedSystem τ) : PinnedAction τ → Option (PinnedSystem τ × PinnedEvent τ)
  | .callAllocate t => if s.pc t = .idle then some (s.setPc t .allocLoad, .silent) else none
  | .callDeallocate t block =>
    if s.pc t = .idle ∧ block ∈ s.owned t then
      some ({ s with owned := Function.update s.owned t ((s.owned t).erase block) }.setPc t
        (.freeLoad block), .silent)
    else none
  | .write t block word =>
    if block ∈ s.owned t then some ({ s with slab := s.slab.writeWord block word }, .silent)
    else none
  | .step t spurious => s.threadStep t spurious

def pinnedInit (poolSize : ℕ) (memory : ℕ → BitVec 32) : PinnedSystem τ where
  slab := .init poolSize memory
  pc _ := .idle
  owned _ := ∅

/-- When an exchange of `allocate` is about to succeed, the head block still stores the next index
the thread has read out of it. -/
def NextCurrent (s : PinnedSystem τ) : PinnedAction τ → Prop
  | .step t false => ∀ e ∈ (s.pc t).exchange, s.slab.headIndex = e.1 →
      s.slab.memory e.1.toNat = e.2
  | _ => True

instance (s : PinnedSystem τ) (a : PinnedAction τ) : Decidable (NextCurrent s a) :=
  match a with
  | .step t false => Option.decidableForallMem (s.pc t).exchange
  | .step _ true => isTrue trivial
  | .callAllocate _ => isTrue trivial
  | .callDeallocate _ _ => isTrue trivial
  | .write _ _ _ => isTrue trivial

/-! ## Whole calls are their steps run alone -/

@[simp] theorem PinnedSystem.setPc_self (s : PinnedSystem τ) (t : τ) (pc : PinnedPc) :
    (s.setPc t pc).pc t = pc := by
  simp [PinnedSystem.setPc]

@[simp] theorem PinnedSystem.setPc_slab (s : PinnedSystem τ) (t : τ) (pc : PinnedPc) :
    (s.setPc t pc).slab = s.slab := rfl

section Alone
variable {s : PinnedSystem τ} {t : τ}

theorem alone_allocLoad_end (hpc : s.pc t = .allocLoad)
    (he : s.slab.headIndex = 0xFFFFFFFF#32) :
    pinnedStep s (.step t false) = some (s.setPc t .idle, .exhausted t) := by
  simp [pinnedStep, PinnedSystem.threadStep, allocHead, hpc, he]

theorem alone_allocLoad (hpc : s.pc t = .allocLoad) (he : s.slab.headIndex ≠ 0xFFFFFFFF#32) :
    pinnedStep s (.step t false) = some (s.setPc t (.allocRead s.slab.headIndex), .silent) := by
  simp [pinnedStep, PinnedSystem.threadStep, allocHead, hpc, he]

theorem alone_allocRead {head : BitVec 32} (hpc : s.pc t = .allocRead head) :
    pinnedStep s (.step t false) =
      some (s.setPc t (.allocCas head (s.slab.memory head.toNat)), .silent) := by
  simp [pinnedStep, PinnedSystem.threadStep, hpc]

theorem alone_allocCas {head next : BitVec 32} (hpc : s.pc t = .allocCas head next)
    (hhead : s.slab.headIndex = head) :
    pinnedStep s (.step t false) = some (allocTake s t head next, .silent) := by
  simp [pinnedStep, PinnedSystem.threadStep, hpc, hhead]

theorem alone_allocCount {block : ℕ} (hpc : s.pc t = .allocCount block) :
    pinnedStep s (.step t false) =
      some ({ s with slab := { s.slab with freeCount := s.slab.freeCount - 1 } }.setPc t .idle,
        .allocated t block) := by
  simp [pinnedStep, PinnedSystem.threadStep, hpc]

theorem alone_freeLoad {block : ℕ} (hpc : s.pc t = .freeLoad block) :
    pinnedStep s (.step t false) =
      some (s.setPc t (.freeWrite block s.slab.headIndex), .silent) := by
  simp [pinnedStep, PinnedSystem.threadStep, hpc]

theorem alone_freeWrite {block : ℕ} {head : BitVec 32} (hpc : s.pc t = .freeWrite block head) :
    pinnedStep s (.step t false) =
      some ({ s with slab := s.slab.writeWord block head }.setPc t (.freeCas block head),
        .silent) := by
  simp [pinnedStep, PinnedSystem.threadStep, hpc]

theorem alone_freeCas {block : ℕ} {head : BitVec 32} (hpc : s.pc t = .freeCas block head)
    (hhead : s.slab.headIndex = head) :
    pinnedStep s (.step t false) = some (freeLink s t block, .silent) := by
  simp [pinnedStep, PinnedSystem.threadStep, hpc, hhead]

theorem alone_freeCount (hpc : s.pc t = .freeCount) :
    pinnedStep s (.step t false) =
      some ({ s with slab := { s.slab with freeCount := s.slab.freeCount + 1 } }.setPc t .idle,
        .deallocated t) := by
  simp [pinnedStep, PinnedSystem.threadStep, hpc]

end Alone

theorem allocate_steps (s : PinnedSystem τ) (t : τ) (hpc : s.pc t = .idle) (object : BitVec 32) :
    ∃ es u, Exec pinnedStep (fun _ _ => True) s es u ∧ u.slab = (s.slab.allocate object).1 := by
  have h1 : Exec pinnedStep (fun _ _ => True) s ([] ++ [.silent]) (s.setPc t .allocLoad) :=
    Exec.nil.snoc (a := .callAllocate t) trivial (by simp [pinnedStep, hpc])
  by_cases he : s.slab.headIndex = 0xFFFFFFFF#32
  · have h2 := h1.snoc (a := .step t false) trivial (alone_allocLoad_end (s.setPc_self t _) he)
    exact ⟨_, _, h2, by simp [PinnedSlab.allocate, he]⟩
  · have h2 := h1.snoc (a := .step t false) trivial (alone_allocLoad (s.setPc_self t _) he)
    have h3 := h2.snoc (a := .step t false) trivial (alone_allocRead (PinnedSystem.setPc_self ..))
    have h4 := h3.snoc (a := .step t false) trivial
      (alone_allocCas (PinnedSystem.setPc_self ..) rfl)
    have h5 := h4.snoc (a := .step t false) trivial (alone_allocCount (by simp [allocTake]; rfl))
    have h6 := h5.snoc (a := .write t s.slab.headIndex.toNat object) trivial
      (by rw [pinnedStep, if_pos (by simp [allocTake, PinnedSystem.setPc])])
    refine ⟨_, _, h6, ?_⟩
    rw [PinnedSlab.allocate, if_neg he]
    rfl

theorem deallocate_steps (s : PinnedSystem τ) (t : τ) (hpc : s.pc t = .idle) {block poolSize : ℕ}
    (hown : block ∈ s.owned t) (hlt : block < poolSize) :
    ∃ es u, Exec pinnedStep (fun _ _ => True) s es u ∧
      u.slab = s.slab.deallocate poolSize (some block) := by
  have h1 : Exec pinnedStep (fun _ _ => True) s ([] ++ [.silent])
      ({ s with owned := Function.update s.owned t ((s.owned t).erase block) }.setPc t
        (.freeLoad block)) :=
    Exec.nil.snoc (a := .callDeallocate t block) trivial (by simp [pinnedStep, hpc, hown])
  have h2 := h1.snoc (a := .step t false) trivial (alone_freeLoad (PinnedSystem.setPc_self ..))
  have h3 := h2.snoc (a := .step t false) trivial (alone_freeWrite (PinnedSystem.setPc_self ..))
  have h4 := h3.snoc (a := .step t false) trivial (alone_freeCas (PinnedSystem.setPc_self ..) rfl)
  have h5 := h4.snoc (a := .step t false) trivial (alone_freeCount (by simp [freeLink]))
  have hin : ¬ ((block : ℤ) < 0 ∨ (poolSize : ℤ) ≤ block) := by omega
  refine ⟨_, _, h5, ?_⟩
  simp only [PinnedSlab.deallocate, hin, if_false]
  rfl

end Steps

end ConduitRuntime.Memory
