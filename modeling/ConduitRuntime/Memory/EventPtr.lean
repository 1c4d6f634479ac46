import Mathlib.Tactic.Common

/-! `event_ptr<T>`: a pointer, the function that gives the pointee back, and that function's
context. Moves and releases clear `ptr_` and `deleter_` only; `pool_ctx_` keeps its old value. -/
namespace ConduitRuntime.Memory
set_option autoImplicit false

/-- The functions the runtime installs as `deleter_`: `pool<T>::release_to_pool` is the only one. -/
inductive Deleter
  | releaseToPool
  deriving DecidableEq, Repr

/-- Pointers to `A` and pool contexts `C`; `none` is the null pointer. -/
structure EventPtr (A C : Type) where
  ptr : Option A
  deleter : Option Deleter
  poolCtx : Option C
  deriving DecidableEq, Repr

namespace EventPtr
variable {A C : Type}

def null : EventPtr A C := ⟨none, none, none⟩

/-- The call `deleter_(pool_ctx_, ptr_)`, when there is one to make. -/
def deleterCall (e : EventPtr A C) : Option (Option C × A) :=
  match e.ptr, e.deleter with
  | some p, some .releaseToPool => some (e.poolCtx, p)
  | _, _ => none

/-- The fields `reset`, `release` and a move leave behind. -/
def cleared (e : EventPtr A C) : EventPtr A C := { e with ptr := none, deleter := none }

/-- `reset`: the handle afterwards and the deleter call made on the way. -/
def reset (e : EventPtr A C) : EventPtr A C × Option (Option C × A) := (e.cleared, e.deleterCall)

def release (e : EventPtr A C) : EventPtr A C × Option A := (e.cleared, e.ptr)

/-- The move constructor: the new handle and what remains of `other`. -/
def moveConstruct (other : EventPtr A C) : EventPtr A C × EventPtr A C := (other, other.cleared)

/-- The move assignment between two distinct handles: the target, what remains of `other`, and
the deleter call made on the target's old pointee. -/
def moveAssign (this other : EventPtr A C) : EventPtr A C × EventPtr A C × Option (Option C × A) :=
  let (_, call) := this.reset
  (other, other.cleared, call)

/-- The constructor with `non_owning_tag`: the same pointer with nothing to delete it. -/
def nonOwning (other : EventPtr A C) : EventPtr A C := ⟨other.ptr, none, none⟩

@[simp] theorem cleared_ptr (e : EventPtr A C) : e.cleared.ptr = none := rfl
@[simp] theorem cleared_deleter (e : EventPtr A C) : e.cleared.deleter = none := rfl
@[simp] theorem cleared_deleterCall (e : EventPtr A C) : e.cleared.deleterCall = none := rfl
@[simp] theorem null_ptr : (null : EventPtr A C).ptr = none := rfl
@[simp] theorem null_deleterCall : (null : EventPtr A C).deleterCall = none := rfl
@[simp] theorem nonOwning_ptr (e : EventPtr A C) : e.nonOwning.ptr = e.ptr := rfl

@[simp] theorem nonOwning_deleterCall (e : EventPtr A C) : e.nonOwning.deleterCall = none := by
  cases h : e.ptr <;> simp [deleterCall, nonOwning, h]

theorem deleterCall_eq_some_iff {e : EventPtr A C} {c : Option C} {p : A} :
    e.deleterCall = some (c, p) ↔ e.ptr = some p ∧ e.deleter ≠ none ∧ e.poolCtx = c := by
  obtain ⟨ptr, deleter, ctx⟩ := e
  rcases ptr with _ | p' <;> rcases deleter with _ | ⟨⟨⟩⟩ <;> simp [deleterCall, and_comm]

/-- The handle with `f` of its pointer. -/
def map {B : Type} (f : A → B) (e : EventPtr A C) : EventPtr B C :=
  ⟨e.ptr.map f, e.deleter, e.poolCtx⟩

end EventPtr

end ConduitRuntime.Memory
