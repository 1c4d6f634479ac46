import ConduitRuntime.Ring.PooledConduit

/-! The domain and the conduit that a template takes as parameters: handles come from `make`, are
moved into `push` and come out of `pop`. None of these is the `make`, `push` or `pop` of the core,
so what a user asks of them is said here, and a pool and a conduit of the core are shown to give it.
-/
namespace ConduitRuntime.Ring
set_option autoImplicit false

/-- The calls, on the common state `P` of domain and conduit, with handles `E` to objects `R`.
`push` is `push(std::move(ev))`, where `ev` may be null and has this object: it gives the answer and
what is left in `ev`. `drop` is the end of a handle that is not null. -/
structure EventPipe (P E R : Type) where
  make : P → Option E × P
  push : P → Option E → R → Bool × Option E × P
  pop : P → Option (E × R) × P
  drop : P → E → P

/-- The end of a handle. -/
def EventPipe.close {P E R : Type} (pipe : EventPipe P E R) (p : P) : Option E → P
  | none => p
  | some ev => pipe.drop p ev

/-- What the users see: the free cells, and the objects in the conduit. -/
structure PipeView (R : Type) where
  free : ℕ
  queue : List R

/-- `sees p held v`: while the users have the handles `held`, the state `p` is seen as `v`. A `make`
that succeeds takes a free cell; a `push` that answers `true` has taken the event and put its object
behind the others, one that answers `false` has changed nothing and left the event in the handle;
`pop` takes the front; and the end of a handle frees its cell. -/
structure EventPipe.Lawful {P E R : Type} (pipe : EventPipe P E R)
    (sees : P → List E → PipeView R → Prop) : Prop where
  perm : ∀ {p held held' v}, sees p held v → held.Perm held' → sees p held' v
  make_none : ∀ {p p' held v}, sees p held v → pipe.make p = (none, p') → sees p' held v
  make_some : ∀ {p p' held ev v}, sees p held v → pipe.make p = (some ev, p') →
    0 < v.free ∧ sees p' (ev :: held) { v with free := v.free - 1 }
  push_true : ∀ {p p' held ev rest r v}, sees p (ev :: held) v →
    pipe.push p (some ev) r = (true, rest, p') →
      rest = none ∧ sees p' held { v with queue := v.queue ++ [r] }
  push_false : ∀ {p p' held ev rest r v}, sees p (ev :: held) v →
    pipe.push p (some ev) r = (false, rest, p') → rest = some ev ∧ sees p' (ev :: held) v
  pop_none : ∀ {p p' held v}, sees p held v → pipe.pop p = (none, p') → sees p' held v
  pop_some : ∀ {p p' held ev r v}, sees p held v → pipe.pop p = (some (ev, r), p') →
    ∃ queue, v.queue = r :: queue ∧ sees p' (ev :: held) { v with queue := queue }
  drop : ∀ {p held ev v}, sees p (ev :: held) v →
    sees (pipe.drop p ev) held { v with free := v.free + 1 }

/-- `make` fails only when no cell is free, and `push` only when the conduit has `room` objects. -/
structure EventPipe.Prompt {P E R : Type} (pipe : EventPipe P E R)
    (sees : P → List E → PipeView R → Prop) (room : ℕ) : Prop where
  make_none : ∀ {p p' held v}, sees p held v → pipe.make p = (none, p') → v.free = 0
  push_false : ∀ {p p' held ev rest r v}, sees p (ev :: held) v →
    pipe.push p (some ev) r = (false, rest, p') → room ≤ v.queue.length

/-! ## The pool and the conduit of the core -/

variable {R : Type} {size : ℕ}

/-- `push` releases the handle when the conduit has taken the pointer. -/
def pooledPipe (R : Type) (size : ℕ) (object : BitVec 64) :
    EventPipe (PooledConduit R size) ℕ R where
  make p :=
    let (p, ev) := p.make object
    (ev, p)
  push p ev r :=
    match p.push (ev.map fun i => (i, r)) with
    | (p, true) => (true, none, p)
    | (p, false) => (false, ev, p)
  pop p :=
    let (p, ptr) := p.pop
    (ptr, p)
  drop p i := p.free i

/-- No pointer in the conduit is null. -/
def PooledConduit.SeenAs (n : ℕ) (p : PooledConduit R size) (held : List ℕ) (v : PipeView R) :
    Prop :=
  p.Sees n held v.free (v.queue.map some)

theorem init_seenAs {n : ℕ} (hsize : 0 < size) (hpos : 1 ≤ n) (hcap : n ≤ 2 ^ 32 - 1)
    (memory : ℕ → BitVec 64) :
    (PooledConduit.init hsize n memory : PooledConduit R size).SeenAs n [] ⟨n, []⟩ :=
  PooledConduit.init_sees hsize hpos hcap memory

section Laws
variable {n : ℕ} {p p' : PooledConduit R size} {held : List ℕ} {v : PipeView R}
  {object : BitVec 64}

theorem pooledPipe_make (h : p.SeenAs n held v) {ev : Option ℕ}
    (hmake : (pooledPipe R size object).make p = (ev, p')) :
    v.free = 0 ∧ ev = none ∧ p' = p ∨
    ∃ i, ev = some i ∧ 0 < v.free ∧ p'.SeenAs n (i :: held) { v with free := v.free - 1 } := by
  rcases h.make object with ⟨hfree, hmade⟩ | ⟨hfree, i, q, hmade, hq⟩
  · simp only [pooledPipe, hmade] at hmake
    cases hmake
    exact .inl ⟨hfree, rfl, rfl⟩
  · simp only [pooledPipe, hmade] at hmake
    cases hmake
    exact .inr ⟨i, rfl, hfree, hq⟩

theorem pooledPipe_push {i : ℕ} (h : p.SeenAs n (i :: held) v) {r : R} {answer : Bool}
    {rest : Option ℕ} (hpush : (pooledPipe R size object).push p (some i) r = (answer, rest, p')) :
    answer = true ∧ rest = none ∧ p'.SeenAs n held { v with queue := v.queue ++ [r] } ∨
    answer = false ∧ rest = some i ∧ p' = p ∧ v.queue.length + 1 = size := by
  have hptr : p.Sees n ((some (i, r)).toList.map Prod.fst ++ held) v.free (v.queue.map some) := h
  rcases hptr.push with ⟨hfull, hpushed⟩ | ⟨-, q, hpushed, hq⟩
  · simp only [pooledPipe, Option.map_some, hpushed] at hpush
    cases hpush
    exact .inr ⟨rfl, rfl, rfl, by rwa [List.length_map] at hfull⟩
  · simp only [pooledPipe, Option.map_some, hpushed] at hpush
    cases hpush
    refine .inl ⟨rfl, rfl, ?_⟩
    simpa [PooledConduit.SeenAs] using hq

theorem pooledPipe_pop (h : p.SeenAs n held v) {ptr : Option (ℕ × R)}
    (hpop : (pooledPipe R size object).pop p = (ptr, p')) :
    ptr = none ∧ p' = p ∨
    ∃ i r queue, ptr = some (i, r) ∧ v.queue = r :: queue ∧
      p'.SeenAs n (i :: held) { v with queue := queue } := by
  rcases PooledConduit.Sees.pop h with ⟨-, hpopped⟩ | ⟨x, q, rest, hqueue, hpopped, hq⟩
  · simp only [pooledPipe, hpopped] at hpop
    cases hpop
    exact .inl ⟨rfl, rfl⟩
  · simp only [pooledPipe, hpopped] at hpop
    cases hpop
    obtain ⟨r, queue, hv, hr, rfl⟩ := List.map_eq_cons_iff.mp hqueue
    obtain ⟨⟨i, r'⟩, rfl, rfl⟩ := Option.map_eq_some_iff.mp hr.symm
    exact .inr ⟨i, r', queue, rfl, hv, hq⟩

end Laws

theorem pooledPipe_lawful {n : ℕ} (hcap : n ≤ 2 ^ 32 - 1) (object : BitVec 64) :
    (pooledPipe R size object).Lawful (PooledConduit.SeenAs n) where
  perm h hperm := PooledConduit.Sees.perm h hperm
  make_none h hmake := by
    rcases pooledPipe_make h hmake with ⟨-, -, rfl⟩ | ⟨i, hi, -⟩
    · exact h
    · cases hi
  make_some h hmake := by
    rcases pooledPipe_make h hmake with ⟨-, hnone, -⟩ | ⟨i, hi, hfree, hseen⟩
    · cases hnone
    · cases hi
      exact ⟨hfree, hseen⟩
  push_true h hpush := by
    rcases pooledPipe_push h hpush with ⟨-, hrest, hseen⟩ | ⟨hfalse, -⟩
    · exact ⟨hrest, hseen⟩
    · cases hfalse
  push_false h hpush := by
    rcases pooledPipe_push h hpush with ⟨htrue, -⟩ | ⟨-, hrest, rfl, -⟩
    · cases htrue
    · exact ⟨hrest, h⟩
  pop_none h hpop := by
    rcases pooledPipe_pop h hpop with ⟨-, rfl⟩ | ⟨i, r, queue, hsome, -⟩
    · exact h
    · cases hsome
  pop_some h hpop := by
    rcases pooledPipe_pop h hpop with ⟨hnone, -⟩ | ⟨i, r, queue, hsome, hqueue, hseen⟩
    · cases hnone
    · cases hsome
      exact ⟨queue, hqueue, hseen⟩
  drop h := PooledConduit.Sees.free hcap h

theorem pooledPipe_prompt {n : ℕ} (object : BitVec 64) :
    (pooledPipe R size object).Prompt (PooledConduit.SeenAs n) (size - 1) where
  make_none h hmake := by
    rcases pooledPipe_make h hmake with ⟨hfree, -⟩ | ⟨i, hi, -⟩
    · exact hfree
    · cases hi
  push_false h hpush := by
    rcases pooledPipe_push h hpush with ⟨htrue, -⟩ | ⟨-, -, -, hfull⟩
    · cases htrue
    · omega

end ConduitRuntime.Ring
