import ConduitRuntime.Foundations.Execution
import ConduitRuntime.Memory.Pool
import Mathlib.Data.Finset.Basic

/-! Any number of threads inside `pool<T>::make` and `pool<T>::free`, one access to shared memory
at a time: the load of `free_head_`, the plain read or write of a cell's `next`, and the
compare-exchange. The control of a thread carries its local copies. Two ghost values are kept for
the statement of the results only: the number of successful exchanges so far, and for each thread
that number at its last reading of `free_head_`. -/
namespace ConduitRuntime.Memory
open Execution LinkChain TaggedWord
set_option autoImplicit false

/-- The access a thread performs next; `seen` is the ghost count at its last reading of the head. -/
inductive PoolPc
  | idle
  | makeLoad
  | makeRead (head : BitVec 64) (seen : ℕ)
  | makeCas (head next : BitVec 64) (seen : ℕ)
  | freeLoad (idx : ℕ)
  | freeWrite (idx : ℕ) (head : BitVec 64) (seen : ℕ)
  | freeCas (idx : ℕ) (head : BitVec 64) (seen : ℕ)

/-- The cell a thread inside `free` is giving back. -/
def PoolPc.held : PoolPc → Option ℕ
  | .freeLoad idx => some idx
  | .freeWrite idx _ _ => some idx
  | .freeCas idx _ _ => some idx
  | _ => none

/-- The ghost count of a thread about to compare-exchange. -/
def PoolPc.casSeen : PoolPc → Option ℕ
  | .makeCas _ _ seen => some seen
  | .freeCas _ _ seen => some seen
  | _ => none

structure PoolSystem (τ : Type) where
  pool : Pool
  pc : τ → PoolPc
  owned : τ → Finset ℕ
  casCount : ℕ

/-- `write` is an owner's store into its cell, by the constructor, the user or the destructor;
`spurious` makes a weak exchange fail although the head is the expected one. -/
inductive PoolAction (τ : Type)
  | callMake (t : τ)
  | callFree (t : τ) (idx : ℕ)
  | write (t : τ) (idx : ℕ) (word : BitVec 64)
  | step (t : τ) (spurious : Bool)

inductive PoolEvent (τ : Type)
  | silent
  | made (t : τ) (idx : ℕ)
  | exhausted (t : τ)
  | freed (t : τ) (idx : ℕ)

section Steps
variable {τ : Type} [DecidableEq τ]

def PoolSystem.setPc (s : PoolSystem τ) (t : τ) (pc : PoolPc) : PoolSystem τ :=
  { s with pc := Function.update s.pc t pc }

/-- `make` has just read the head: it returns null at the end of the list, else goes on. -/
def makeHead (s : PoolSystem τ) (t : τ) : PoolSystem τ × PoolEvent τ :=
  if index s.pool.freeHead = endOfList then (s.setPc t .idle, .exhausted t)
  else (s.setPc t (.makeRead s.pool.freeHead s.casCount), .silent)

/-- The successful exchange of `make`: the cell now belongs to `t`. -/
def makeTake (s : PoolSystem τ) (t : τ) (head next : BitVec 64) : PoolSystem τ :=
  { s with
    pool := { s.pool with freeHead := advance head next }
    pc := Function.update s.pc t .idle
    owned := Function.update s.owned t (insert (index head) (s.owned t))
    casCount := s.casCount + 1 }

/-- The successful exchange of `free`. -/
def freePut (s : PoolSystem τ) (t : τ) (idx : ℕ) (head : BitVec 64) : PoolSystem τ :=
  { s with
    pool := { s.pool with freeHead := advance head (BitVec.ofNat 64 idx) }
    pc := Function.update s.pc t .idle
    casCount := s.casCount + 1 }

def threadStep (s : PoolSystem τ) (t : τ) (spurious : Bool) :
    Option (PoolSystem τ × PoolEvent τ) :=
  match s.pc t with
  | .idle => none
  | .makeLoad => some (makeHead s t)
  | .makeRead head seen =>
    some (s.setPc t (.makeCas head (s.pool.memory (index head)) seen), .silent)
  | .makeCas head next _ =>
    if spurious = false ∧ s.pool.freeHead = head then
      some (makeTake s t head next, .made t (index head))
    else some (makeHead s t)
  | .freeLoad idx => some (s.setPc t (.freeWrite idx s.pool.freeHead s.casCount), .silent)
  | .freeWrite idx head seen =>
    some ({ s with pool := s.pool.writeNext idx (head &&& 0xFFFFFFFF#64) }.setPc t
      (.freeCas idx head seen), .silent)
  | .freeCas idx head _ =>
    if spurious = false ∧ s.pool.freeHead = head then
      some (freePut s t idx head, .freed t idx)
    else some (s.setPc t (.freeWrite idx s.pool.freeHead s.casCount), .silent)

/-- Calls start on idle threads; a thread frees and writes only cells it owns. -/
def poolStep (s : PoolSystem τ) : PoolAction τ → Option (PoolSystem τ × PoolEvent τ)
  | .callMake t =>
    match s.pc t with
    | .idle => some (s.setPc t .makeLoad, .silent)
    | _ => none
  | .callFree t idx =>
    match s.pc t with
    | .idle =>
      if idx ∈ s.owned t then
        some ({ s with owned := Function.update s.owned t ((s.owned t).erase idx) }.setPc t
          (.freeLoad idx), .silent)
      else none
    | _ => none
  | .write t idx word =>
    if idx ∈ s.owned t then some ({ s with pool := s.pool.writeNext idx word }, .silent) else none
  | .step t spurious => threadStep s t spurious

def poolInit (capacity : ℕ) (memory : ℕ → BitVec 64) : PoolSystem τ where
  pool := .init capacity memory
  pc _ := .idle
  owned _ := ∅
  casCount := 0

/-- Fewer than `2^32` exchanges succeed between a thread's last reading of the head and its next
compare-exchange. -/
def FreshTag (s : PoolSystem τ) : PoolAction τ → Prop
  | .step t _ => ∀ seen ∈ (s.pc t).casSeen, s.casCount - seen < 2 ^ 32
  | _ => True

instance (s : PoolSystem τ) (a : PoolAction τ) : Decidable (FreshTag s a) :=
  match a with
  | .step t _ => inferInstanceAs (Decidable (∀ seen ∈ (s.pc t).casSeen, s.casCount - seen < 2 ^ 32))
  | .callMake _ => isTrue trivial
  | .callFree _ _ => isTrue trivial
  | .write _ _ _ => isTrue trivial

/-! ## Whole calls are their steps run alone -/

@[simp] theorem setPc_self (s : PoolSystem τ) (t : τ) (pc : PoolPc) : (s.setPc t pc).pc t = pc := by
  simp [PoolSystem.setPc]

@[simp] theorem setPc_pool (s : PoolSystem τ) (t : τ) (pc : PoolPc) :
    (s.setPc t pc).pool = s.pool := rfl

theorem step_makeLoad_end {s : PoolSystem τ} {t : τ} (hpc : s.pc t = .makeLoad)
    (he : index s.pool.freeHead = endOfList) :
    poolStep s (.step t false) = some (s.setPc t .idle, .exhausted t) := by
  simp [poolStep, threadStep, makeHead, hpc, he]

theorem step_makeLoad {s : PoolSystem τ} {t : τ} (hpc : s.pc t = .makeLoad)
    (he : index s.pool.freeHead ≠ endOfList) : poolStep s (.step t false) =
      some (s.setPc t (.makeRead s.pool.freeHead s.casCount), .silent) := by
  simp [poolStep, threadStep, makeHead, hpc, he]

theorem step_makeRead {s : PoolSystem τ} {t : τ} {head : BitVec 64} {seen : ℕ}
    (hpc : s.pc t = .makeRead head seen) : poolStep s (.step t false) =
      some (s.setPc t (.makeCas head (s.pool.memory (index head)) seen), .silent) := by
  simp [poolStep, threadStep, hpc]

theorem step_makeCas {s : PoolSystem τ} {t : τ} {head next : BitVec 64} {seen : ℕ}
    (hpc : s.pc t = .makeCas head next seen) (hhead : s.pool.freeHead = head) :
    poolStep s (.step t false) = some (makeTake s t head next, .made t (index head)) := by
  simp [poolStep, threadStep, hpc, hhead]

theorem step_write {s : PoolSystem τ} (t : τ) (idx : ℕ) (word : BitVec 64)
    (hown : idx ∈ s.owned t) : poolStep s (.write t idx word) =
      some ({ s with pool := s.pool.writeNext idx word }, .silent) := by
  simp [poolStep, hown]

theorem step_freeLoad {s : PoolSystem τ} {t : τ} {idx : ℕ} (hpc : s.pc t = .freeLoad idx) :
    poolStep s (.step t false) =
      some (s.setPc t (.freeWrite idx s.pool.freeHead s.casCount), .silent) := by
  simp [poolStep, threadStep, hpc]

theorem step_freeWrite {s : PoolSystem τ} {t : τ} {idx : ℕ} {head : BitVec 64} {seen : ℕ}
    (hpc : s.pc t = .freeWrite idx head seen) : poolStep s (.step t false) =
      some ({ s with pool := s.pool.writeNext idx (head &&& 0xFFFFFFFF#64) }.setPc t
        (.freeCas idx head seen), .silent) := by
  simp [poolStep, threadStep, hpc]

theorem step_freeCas {s : PoolSystem τ} {t : τ} {idx : ℕ} {head : BitVec 64} {seen : ℕ}
    (hpc : s.pc t = .freeCas idx head seen) (hhead : s.pool.freeHead = head) :
    poolStep s (.step t false) = some (freePut s t idx head, .freed t idx) := by
  simp [poolStep, threadStep, hpc, hhead]

theorem make_steps (s : PoolSystem τ) (t : τ) (hpc : s.pc t = .idle) (object : BitVec 64) :
    ∃ es u, Exec poolStep (fun _ _ => True) s es u ∧ u.pool = (s.pool.make t object).1 := by
  have h1 : Exec poolStep (fun _ _ => True) s ([] ++ [.silent]) (s.setPc t .makeLoad) :=
    Exec.nil.snoc (a := .callMake t) trivial (by simp [poolStep, hpc])
  by_cases he : index s.pool.freeHead = endOfList
  · have h2 := h1.snoc (a := .step t false) trivial (step_makeLoad_end (setPc_self _ _ _) he)
    exact ⟨_, _, h2, by simp [Pool.make, he]⟩
  · have h2 := h1.snoc (a := .step t false) trivial (step_makeLoad (setPc_self _ _ _) he)
    have h3 := h2.snoc (a := .step t false) trivial (step_makeRead (setPc_self _ _ _))
    have h4 := h3.snoc (a := .step t false) trivial (step_makeCas (setPc_self _ _ _) rfl)
    have h5 := h4.snoc trivial (step_write t (index s.pool.freeHead) object
      (by simp [makeTake]))
    exact ⟨_, _, h5, by simp [Pool.make, he, makeTake]⟩

theorem free_steps (s : PoolSystem τ) (t : τ) (hpc : s.pc t = .idle) {idx : ℕ}
    (hown : idx ∈ s.owned t) :
    ∃ es u, Exec poolStep (fun _ _ => True) s es u ∧ u.pool = s.pool.free idx := by
  have h1 : Exec poolStep (fun _ _ => True) s ([] ++ [.silent])
      ({ s with owned := Function.update s.owned t ((s.owned t).erase idx) }.setPc t
        (.freeLoad idx)) :=
    Exec.nil.snoc (a := .callFree t idx) trivial (by simp [poolStep, hpc, hown])
  have h2 := h1.snoc (a := .step t false) trivial (step_freeLoad (setPc_self _ _ _))
  have h3 := h2.snoc (a := .step t false) trivial (step_freeWrite (setPc_self _ _ _))
  have h4 := h3.snoc (a := .step t false) trivial (step_freeCas (setPc_self _ _ _) rfl)
  exact ⟨_, _, h4, rfl⟩

end Steps

end ConduitRuntime.Memory
