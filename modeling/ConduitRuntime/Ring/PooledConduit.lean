import ConduitRuntime.Memory.PoolAccount
import ConduitRuntime.Ring.Conduit

/-! A pool and a conduit of pointers to its cells, used by whole calls, and what their users see of
them: how many cells are free, and the objects in the conduit. -/
namespace ConduitRuntime.Ring
open Memory
set_option autoImplicit false

/-- A pointer is the number of a cell, with the object in it. -/
structure PooledConduit (R : Type) (size : ℕ) where
  pool : Pool
  pipe : Conduit (ℕ × R) size

namespace PooledConduit
variable {R : Type} {size : ℕ}

def init (hsize : 0 < size) (cells : ℕ) (memory : ℕ → BitVec 64) : PooledConduit R size :=
  ⟨.init cells memory, .fresh hsize fun _ => none⟩

/-- `object` is what the new object has in the bytes that alias `next`. -/
def make (p : PooledConduit R size) (object : BitVec 64) : PooledConduit R size × Option ℕ :=
  let (pool, ev) := p.pool.make () object
  ({ p with pool := pool }, ev.ptr)

def push (p : PooledConduit R size) (ptr : Option (ℕ × R)) : PooledConduit R size × Bool :=
  let (pipe, accepted) := p.pipe.push ptr
  ({ p with pipe := pipe }, accepted)

def pop (p : PooledConduit R size) : PooledConduit R size × Option (ℕ × R) :=
  let (pipe, ev) := p.pipe.pop ()
  ({ p with pipe := pipe }, ev.ptr)

def free (p : PooledConduit R size) (i : ℕ) : PooledConduit R size :=
  { p with pool := p.pool.free i }

/-- The cells of pointers; a null pointer has none. -/
def cellsOf (ptrs : List (Option (ℕ × R))) : List ℕ := ptrs.filterMap (Option.map Prod.fst)

@[simp] theorem cellsOf_append (xs ys : List (Option (ℕ × R))) :
    cellsOf (xs ++ ys) = cellsOf xs ++ cellsOf ys := by
  simp [cellsOf]

theorem cellsOf_cons (x : Option (ℕ × R)) (xs : List (Option (ℕ × R))) :
    cellsOf (x :: xs) = x.toList.map Prod.fst ++ cellsOf xs := by
  cases x <;> simp [cellsOf]

/-- One of the pointers beside the others. -/
theorem cellsOf_middle (xs : List (Option (ℕ × R))) (x : Option (ℕ × R))
    (ys : List (Option (ℕ × R))) (cells : List ℕ) :
    (cellsOf (xs ++ x :: ys) ++ cells).Perm (cellsOf (xs ++ ys) ++ (cellsOf [x] ++ cells)) := by
  have hfront : (cellsOf (xs ++ x :: ys)).Perm (cellsOf [x] ++ cellsOf (xs ++ ys)) := by
    rw [← cellsOf_append]
    exact List.perm_middle.filterMap _
  refine (hfront.append_right cells).trans ?_
  rw [← List.append_assoc]
  exact List.perm_append_comm.append_right cells

/-- Of the `n` cells, `free` are free; the users have those of `held`, and the others are in the
conduit, where the objects are `queue`. -/
structure Sees (n : ℕ) (p : PooledConduit R size) (held : List ℕ) (free : ℕ)
    (queue : List (Option R)) : Prop where
  objects : p.pipe.contents.map (Option.map Prod.snd) = queue
  accounts : p.pool.Accounts n (held ++ cellsOf p.pipe.contents)
  count : free + (held ++ cellsOf p.pipe.contents).length = n

theorem init_sees {n : ℕ} (hsize : 0 < size) (hpos : 1 ≤ n) (hcap : n ≤ 2 ^ 32 - 1)
    (memory : ℕ → BitVec 64) : (init hsize n memory : PooledConduit R size).Sees n [] n [] := by
  have hnil : (init hsize n memory : PooledConduit R size).pipe.contents = [] :=
    Conduit.contents_fresh hsize _
  refine ⟨by rw [hnil]; rfl, ?_, by rw [hnil]; rfl⟩
  rw [hnil]
  exact Pool.init_accounts hpos hcap memory

namespace Sees
variable {n spare : ℕ} {p : PooledConduit R size} {held : List ℕ} {queue : List (Option R)}

theorem perm (h : p.Sees n held spare queue) {held' : List ℕ} (hperm : held.Perm held') :
    p.Sees n held' spare queue := by
  refine ⟨h.objects, h.accounts.perm (hperm.append_right _), ?_⟩
  rw [(hperm.append_right _).symm.length_eq]
  exact h.count

theorem length_lt (h : p.Sees n held spare queue) : queue.length < size := by
  rw [← h.objects, List.length_map, Conduit.contents_length]
  exact p.pipe.count_lt

/-- `make` fails exactly when no cell is free. -/
theorem make (h : p.Sees n held spare queue) (object : BitVec 64) :
    spare = 0 ∧ p.make object = (p, none) ∨
    0 < spare ∧ ∃ i q, p.make object = (q, some i) ∧ q.Sees n (i :: held) (spare - 1) queue := by
  have hcount := h.count
  rcases Nat.lt_or_eq_of_le h.accounts.length_le with hlt | hfull
  · obtain ⟨i, hptr, hacc⟩ := h.accounts.make hlt () object
    refine .inr ⟨by omega, i, (p.make object).1, ?_, h.objects, hacc, ?_⟩
    · simp only [PooledConduit.make, hptr]
    · have hsame : (p.make object).1.pipe = p.pipe := rfl
      rw [hsame, List.cons_append, List.length_cons]
      omega
  · refine .inl ⟨by omega, ?_⟩
    rw [PooledConduit.make, h.accounts.make_full hfull () object]
    rfl

/-- `push` fails exactly when the conduit is full. -/
theorem push {ptr : Option (ℕ × R)} (h : p.Sees n (ptr.toList.map Prod.fst ++ held) spare queue) :
    queue.length + 1 = size ∧ p.push ptr = (p, false) ∨
    queue.length + 1 ≠ size ∧
      ∃ q, p.push ptr = (q, true) ∧ q.Sees n held spare (queue ++ [ptr.map Prod.snd]) := by
  obtain ⟨hobjects, hacc, hcount⟩ := h
  have hlen : p.pipe.contents.length = queue.length := by rw [← hobjects, List.length_map]
  by_cases hfull : p.pipe.contents.length + 1 = size
  · refine .inl ⟨by rw [← hlen]; exact hfull, ?_⟩
    rw [PooledConduit.push, p.pipe.push_of_full ptr hfull]
  · obtain ⟨haccepted, hcontents⟩ := p.pipe.push_of_room ptr hfull
    -- the cell of the pointer moves from the user to the back of the conduit
    have hperm : (ptr.toList.map Prod.fst ++ held ++ cellsOf p.pipe.contents).Perm
        (held ++ cellsOf (p.pipe.push ptr).1.contents) := by
      rw [hcontents, cellsOf_append, cellsOf_cons, ← List.append_assoc]
      refine (List.perm_append_comm.append_right _).trans ?_
      rw [List.append_assoc, List.append_assoc]
      refine List.Perm.append_left held (List.perm_append_comm.trans ?_)
      simp [cellsOf]
    refine .inr ⟨by rw [← hlen]; exact hfull, (p.push ptr).1, ?_, ?_, hacc.perm hperm, ?_⟩
    · simp only [PooledConduit.push, haccepted]
    · rw [show (p.push ptr).1.pipe.contents = p.pipe.contents ++ [ptr] from hcontents,
        List.map_append, hobjects]
      rfl
    · exact hperm.length_eq ▸ hcount

/-- `pop` takes the front pointer, which may be null, or finds none. -/
theorem pop (h : p.Sees n held spare queue) :
    queue = [] ∧ p.pop = (p, none) ∨
    ∃ ptr q rest, queue = ptr.map Prod.snd :: rest ∧ p.pop = (q, ptr) ∧
      q.Sees n (ptr.toList.map Prod.fst ++ held) spare rest := by
  obtain ⟨hobjects, hacc, hcount⟩ := h
  cases hcontents : p.pipe.contents with
  | nil =>
    rw [hcontents] at hobjects
    refine .inl ⟨hobjects.symm, ?_⟩
    rw [PooledConduit.pop, p.pipe.pop_of_empty () hcontents]
    rfl
  | cons ptr ptrs =>
    obtain ⟨hev, hrest⟩ := p.pipe.pop_of_cons () hcontents
    rw [hcontents] at hobjects hacc hcount
    have hperm : (held ++ cellsOf (ptr :: ptrs)).Perm
        (ptr.toList.map Prod.fst ++ held ++ cellsOf (p.pipe.pop ()).1.contents) := by
      rw [hrest, cellsOf_cons, ← List.append_assoc]
      exact List.perm_append_comm.append_right _
    refine .inr ⟨ptr, p.pop.1, _, hobjects.symm, ?_, ?_, hacc.perm hperm, ?_⟩
    · simp only [PooledConduit.pop, hev]
    · exact congrArg (List.map (Option.map Prod.snd)) hrest
    · exact hperm.length_eq ▸ hcount

theorem free {i : ℕ} (hcap : n ≤ 2 ^ 32 - 1) (h : p.Sees n (i :: held) spare queue) :
    (p.free i).Sees n held (spare + 1) queue := by
  obtain ⟨hobjects, hacc, hcount⟩ := h
  refine ⟨hobjects, Pool.Accounts.free hcap hacc, ?_⟩
  rw [List.cons_append, List.length_cons] at hcount
  simp only [PooledConduit.free]
  omega

end Sees

end PooledConduit

end ConduitRuntime.Ring
