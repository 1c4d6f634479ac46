import ConduitRuntime.Foundations.Execution
import ConduitRuntime.Memory.Pool
import ConduitRuntime.Ring.Conduit

/-! A single-threaded program over one pool, any handles and any rings. A statement of such a
program is a few handle operations in a row: `h = pool.make(..)` constructs a temporary, moves it
into `h` and destroys the temporary. -/
namespace ConduitRuntime.Ownership
open Memory Execution ConduitRuntime.Ring
set_option autoImplicit false

variable {N H R : Type} {size : R → ℕ}

/-- `handles x = none` while the handle `x` is not alive. -/
structure World (N R : Type) (size : R → ℕ) where
  pool : Pool
  handles : N → Option (EventPtr ℕ Unit)
  rings : (r : R) → Conduit ℕ (size r)

/-- What a handle operation does to the objects in the cells. -/
inductive LifeEvent
  | silent
  | constructed (cell : ℕ)
  | destroyed (cell : ℕ)
  deriving DecidableEq, Repr

/-- The handle operations. `write` is an owner changing the bytes of its object. -/
inductive Prim (N R : Type)
  | declare (x : N)
  | make (x : N) (object : BitVec 64)
  | moveConstruct (x other : N)
  | moveAssign (x other : N)
  | reset (x : N)
  | destroy (x : N)
  | handOff (x : N) (r : R)
  | pop (x : N) (r : R)
  | write (x : N) (word : BitVec 64)

namespace World

def setHandle [DecidableEq N] (w : World N R size) (x : N) (e : Option (EventPtr ℕ Unit)) :
    World N R size :=
  { w with handles := Function.update w.handles x e }

def setRing [DecidableEq R] (w : World N R size) (r : R) (c : Conduit ℕ (size r)) :
    World N R size :=
  { w with rings := Function.update w.rings r c }

/-- `release_to_pool(ctx, ptr)`: the destructor of the object and the return of its cell. A null
context has no pool to go to. -/
def callDeleter (w : World N R size) :
    Option (Option Unit × ℕ) → Option (World N R size × LifeEvent)
  | none => some (w, .silent)
  | some (none, _) => none
  | some (some (), i) => some ({ w with pool := w.pool.free i }, .destroyed i)

end World

section Steps
variable [DecidableEq N] [DecidableEq R]

/-- The deleter call of the handle `x`, after which `x` is left with the fields `e`. -/
def dropInto (w : World N R size) (x : N) (old : EventPtr ℕ Unit)
    (e : Option (EventPtr ℕ Unit)) : Option (World N R size × LifeEvent) :=
  (w.callDeleter old.reset.2).map fun r => (r.1.setHandle x e, r.2)

def lifeOfMake (made : EventPtr ℕ Unit) : LifeEvent :=
  match made.ptr with
  | none => .silent
  | some i => .constructed i

def primStep (w : World N R size) : Prim N R → Option (World N R size × LifeEvent)
  | .declare x =>
    match w.handles x with
    | none => some (w.setHandle x (some .null), .silent)
    | some _ => none
  | .make x object =>
    match w.handles x with
    | none =>
      let (pool, made) := w.pool.make () object
      some ({ w with pool }.setHandle x (some made), lifeOfMake made)
    | some _ => none
  | .moveConstruct x other =>
    match w.handles x, w.handles other with
    | none, some e =>
      let (this, rest) := e.moveConstruct
      some ((w.setHandle x (some this)).setHandle other (some rest), .silent)
    | _, _ => none
  | .moveAssign x other =>
    match w.handles x, w.handles other with
    | some this, some e =>
      if x = other then some (w, .silent)
      else
        let (target, rest, call) := this.moveAssign e
        (w.callDeleter call).map fun r =>
          ((r.1.setHandle x (some target)).setHandle other (some rest), r.2)
    | _, _ => none
  | .reset x =>
    match w.handles x with
    | some e => dropInto w x e (some e.reset.1)
    | none => none
  | .destroy x =>
    match w.handles x with
    | some e => dropInto w x e none
    | none => none
  | .handOff x r =>
    match w.handles x with
    | some e =>
      let (c, taken) := (w.rings r).push e.ptr
      some (if taken then (w.setRing r c).setHandle x (some e.release.1) else w.setRing r c,
        .silent)
    | none => none
  | .pop x r =>
    match w.handles x with
    | none =>
      let (c, e) := (w.rings r).pop ()
      some ((w.setRing r c).setHandle x (some e), .silent)
    | some _ => none
  | .write x word =>
    match w.handles x with
    | some ⟨some i, _, _⟩ => some ({ w with pool := w.pool.writeNext i word }, .silent)
    | _ => none

end Steps

/-- The lifetime rules of the language: constructors need a dead name, everything else a live one,
and only an object can be written to. -/
def Prim.Legal (w : World N R size) : Prim N R → Prop
  | .declare x => w.handles x = none
  | .make x _ => w.handles x = none
  | .moveConstruct x other => w.handles x = none ∧ w.handles other ≠ none
  | .moveAssign x other => w.handles x ≠ none ∧ w.handles other ≠ none
  | .reset x => w.handles x ≠ none
  | .destroy x => w.handles x ≠ none
  | .handOff x _ => w.handles x ≠ none
  | .pop x _ => w.handles x = none
  | .write x _ => ∃ e, w.handles x = some e ∧ e.ptr ≠ none

/-- The statements of a program with handles named by `H`; its temporaries are named `none`. -/
inductive Op (H R : Type)
  | declare (h : H)
  | make (h : H) (object : BitVec 64)
  | moveConstruct (h other : H)
  | moveAssign (h other : H)
  | reset (h : H)
  | destroy (h : H)
  | handOff (h : H) (r : R)
  | pop (h : H) (r : R)
  | initMake (h : H) (object : BitVec 64)
  | initPop (h : H) (r : R)
  | write (h : H) (word : BitVec 64)

def Op.prims : Op H R → List (Prim (Option H) R)
  | .declare h => [.declare (some h)]
  | .make h object => [.make none object, .moveAssign (some h) none, .destroy none]
  | .moveConstruct h other => [.moveConstruct (some h) (some other)]
  | .moveAssign h other => [.moveAssign (some h) (some other)]
  | .reset h => [.reset (some h)]
  | .destroy h => [.destroy (some h)]
  | .handOff h r => [.handOff (some h) r]
  | .pop h r => [.pop none r, .moveAssign (some h) none, .destroy none]
  | .initMake h object => [.make (some h) object]
  | .initPop h r => [.pop (some h) r]
  | .write h word => [.write (some h) word]

/-- Before any handle is alive: a new pool and new rings over uninitialised memory. -/
def World.init (n : ℕ) (memory : ℕ → BitVec 64) (hsize : ∀ r, 0 < size r)
    (slots : R → ℕ → Option ℕ) : World N R size :=
  ⟨Pool.init n memory, fun _ => none, fun r => .fresh (hsize r) (slots r)⟩

end ConduitRuntime.Ownership
