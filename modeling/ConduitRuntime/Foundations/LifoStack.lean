import ConduitRuntime.Foundations.Execution
import Mathlib.Data.List.Perm.Basic

/-! Allocators of numbered cells, the client that frees and writes only cells it was given, and the
abstract allocator: a stack of free cells. An implementation that keeps a stack of free cells in
any representation answers every history as the stack does. -/
namespace ConduitRuntime.LifoStack
open Execution
set_option autoImplicit false

/-- The calls of an allocator with states `σ` whose cells hold objects `π`. -/
structure Allocator (σ π : Type) where
  make : σ → π → σ × Option ℕ
  free : σ → ℕ → σ
  write : σ → ℕ → π → σ

/-- The stack itself, top first. -/
def stackAllocator (π : Type) : Allocator (List ℕ) π where
  make stack _ := (stack.tail, stack.head?)
  free stack i := i :: stack
  write stack _ _ := stack

/-! ## Clients -/

/-- An allocator with the cells it has given out and not yet got back. -/
structure Client (σ : Type) where
  heap : σ
  live : List ℕ

inductive ClientCall (π : Type)
  | make (object : π)
  | free (i : ℕ)
  | write (i : ℕ) (object : π)

inductive ClientEvent
  | made (answer : Option ℕ)
  | freed (i : ℕ)
  | wrote (i : ℕ)
  deriving DecidableEq

variable {σ π : Type}

def clientStep (A : Allocator σ π) (s : Client σ) : ClientCall π → Option (Client σ × ClientEvent)
  | .make object =>
    let (heap, answer) := A.make s.heap object
    some (⟨heap, answer.toList ++ s.live⟩, .made answer)
  | .free i => some (⟨A.free s.heap i, s.live.erase i⟩, .freed i)
  | .write i object => some (⟨A.write s.heap i object, s.live⟩, .wrote i)

/-- Only live cells are freed or written. -/
def LiveOnly (s : Client σ) : ClientCall π → Prop
  | .make _ => True
  | .free i => i ∈ s.live
  | .write i _ => i ∈ s.live

instance (s : Client σ) (c : ClientCall π) : Decidable (LiveOnly s c) :=
  match c with
  | .make _ => isTrue trivial
  | .free i => inferInstanceAs (Decidable (i ∈ s.live))
  | .write i _ => inferInstanceAs (Decidable (i ∈ s.live))

/-! ## Free and live cells -/

/-- Every cell below `n` is free or live, and none is both. -/
def Balanced (n : ℕ) (stack live : List ℕ) : Prop := (stack ++ live).Perm (List.range n)

variable {n i : ℕ} {stack live : List ℕ}

theorem balanced_init (n : ℕ) : Balanced n (List.range n) [] := by
  unfold Balanced
  rw [List.append_nil]

theorem Balanced.make (h : Balanced n (i :: stack) live) : Balanced n stack (i :: live) :=
  List.perm_middle.trans h

theorem Balanced.free (h : Balanced n stack live) (hi : i ∈ live) :
    Balanced n (i :: stack) (live.erase i) := by
  have herase : (i :: live.erase i).Perm live := (List.perm_cons_erase hi).symm
  have hmove : (i :: stack ++ live.erase i).Perm (stack ++ i :: live.erase i) :=
    List.perm_middle.symm
  exact hmove.trans ((herase.append_left stack).trans h)

theorem Balanced.nodup (h : Balanced n stack live) : (stack ++ live).Nodup :=
  h.nodup_iff.mpr List.nodup_range

theorem Balanced.notMem (h : Balanced n stack live) (hi : i ∈ live) : i ∉ stack := by
  intro hs
  exact (List.nodup_append.mp h.nodup).2.2 i hs i hi rfl

theorem Balanced.lt (h : Balanced n stack live) (hi : i ∈ live) : i < n :=
  List.mem_range.mp (h.mem_iff.mp (List.mem_append_right stack hi))

theorem Balanced.length (h : Balanced n stack live) : stack.length + live.length = n := by
  have := h.length_eq
  rw [List.length_append, List.length_range] at this
  exact this

/-! ## Implementations -/

/-- `Rep heap stack`: the free cells of `heap`, in the order it will give them out. -/
structure Implements (A : Allocator σ π) (n : ℕ) (Rep : σ → List ℕ → Prop) : Prop where
  make_nil : ∀ heap object, Rep heap [] → (A.make heap object).2 = none ∧
    Rep (A.make heap object).1 []
  make_cons : ∀ heap object i stack, Rep heap (i :: stack) → (A.make heap object).2 = some i ∧
    Rep (A.make heap object).1 stack
  free : ∀ heap i stack, Rep heap stack → i < n → i ∉ stack → Rep (A.free heap i) (i :: stack)
  write : ∀ heap i object stack, Rep heap stack → i ∉ stack → Rep (A.write heap i object) stack

variable {A : Allocator σ π} {Rep : σ → List ℕ → Prop} {heap : σ}

theorem Implements.make (h : Implements A n Rep) (object : π) (hr : Rep heap stack) :
    (A.make heap object).2 = stack.head? ∧ Rep (A.make heap object).1 stack.tail := by
  cases stack with
  | nil => exact h.make_nil heap object hr
  | cons i stack => exact h.make_cons heap object i stack hr

/-- The answers of one `make` after another. -/
def Allocator.makeAll (A : Allocator σ π) : σ → List π → List (Option ℕ)
  | _, [] => []
  | heap, object :: rest => (A.make heap object).2 :: A.makeAll (A.make heap object).1 rest

/-- As many calls get a cell as the stack holds. -/
theorem Implements.makeAll (h : Implements A n Rep) (hr : Rep heap stack) (objects : List π) :
    (A.makeAll heap objects).filterMap id = stack.take objects.length := by
  induction objects generalizing heap stack with
  | nil => simp [Allocator.makeAll]
  | cons object rest ih =>
    obtain ⟨hanswer, hr'⟩ := h.make object hr
    rw [Allocator.makeAll, hanswer]
    cases stack with
    | nil => simpa using ih hr'
    | cons i stack => simpa using ih hr'

theorem Balanced.makeAnswer (h : Balanced n stack live) :
    Balanced n stack.tail (stack.head?.toList ++ live) := by
  cases stack with
  | nil => exact h
  | cons i stack => exact h.make

/-- Every history of the implementation is a history of the stack, answers included. -/
theorem Implements.exec (h : Implements A n Rep) {heap₀ : σ} (hinit : Rep heap₀ (List.range n))
    {es : List ClientEvent} {s : Client σ}
    (hexec : Exec (clientStep A) LiveOnly ⟨heap₀, []⟩ es s) :
    ∃ stack, Rep s.heap stack ∧ Balanced n stack s.live ∧
      Exec (clientStep (stackAllocator π)) LiveOnly ⟨List.range n, []⟩ es ⟨stack, s.live⟩ := by
  refine hexec.invariant (fun es s => ∃ stack, Rep s.heap stack ∧ Balanced n stack s.live ∧
    Exec (clientStep (stackAllocator π)) LiveOnly ⟨List.range n, []⟩ es ⟨stack, s.live⟩)
    ⟨_, hinit, balanced_init n, .nil⟩ ?_
  rintro es s c t e ⟨stack, hr, hb, hx⟩ hok hstep
  cases c with
  | make object =>
    obtain ⟨rfl, rfl⟩ := Prod.mk.inj (Option.some.inj hstep)
    obtain ⟨hanswer, hr'⟩ := h.make object hr
    have hx' := hx.snoc (a := ClientCall.make object) trivial rfl
    refine ⟨stack.tail, hr', ?_, ?_⟩
    · rw [hanswer]
      exact hb.makeAnswer
    · rw [hanswer]
      exact hx'
  | free i =>
    obtain ⟨rfl, rfl⟩ := Prod.mk.inj (Option.some.inj hstep)
    exact ⟨i :: stack, h.free s.heap i stack hr (hb.lt hok) (hb.notMem hok), hb.free hok,
      hx.snoc (a := ClientCall.free i) hok rfl⟩
  | write i object =>
    obtain ⟨rfl, rfl⟩ := Prod.mk.inj (Option.some.inj hstep)
    exact ⟨stack, h.write s.heap i object stack hr (hb.notMem hok), hb,
      hx.snoc (a := ClientCall.write i object) hok rfl⟩

end ConduitRuntime.LifoStack
