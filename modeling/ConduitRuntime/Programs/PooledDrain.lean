import ConduitRuntime.Foundations.Refinement
import ConduitRuntime.Programs.GracefulDrain
import ConduitRuntime.Ring.PooledConduit

/-! The program `03_graceful_drain` over the pool and the conduit of the core. Every run of it is a
run of the model with the counted pool and the queue, with the same answers and the same events
handled; what is proved of that model holds of the program with its pointers. -/
namespace ConduitRuntime.Programs
open Execution ConduitRuntime.Ring
set_option autoImplicit false

/-- As `DrainMain`, with the cells of what `make` returned. -/
inductive PooledMain
  | test
  | make
  | push (ptr : Option (ℕ × ℕ))
  | check
  | makePill
  | pushPill (ptr : Option ℕ)
  | join
  | finished

inductive PooledWorker
  | pop
  | work (cell id : ℕ)
  | finished

structure PooledDrain (size : ℕ) where
  shutdownRequested : Bool
  eventCounter : ℕ
  main : PooledMain
  worker : PooledWorker
  core : PooledConduit Work size
  leaked : List ℕ
  processed : List ℕ

section Program
variable {size : ℕ} (limit : ℕ) (object : Work → BitVec 64)

/-- `push` of a pointer that no handle owns any more. -/
def PooledDrain.push (p : PooledDrain size) (ptr : Option (ℕ × Work))
    (accepted refused : PooledMain) :
    PooledDrain size × DrainNote :=
  match p.core.push ptr with
  | (core, true) => ({ p with core := core, main := accepted }, .pushed true)
  | (core, false) =>
    ({ p with core := core, leaked := ptr.toList.map Prod.fst ++ p.leaked, main := refused },
      .pushed false)

def pooledMain (p : PooledDrain size) : Option (PooledDrain size × DrainNote) :=
  match p.main with
  | .test => some ({ p with main := if p.shutdownRequested then .makePill else .make }, .silent)
  | .make =>
    let (core, cell) := p.core.make (object (.event p.eventCounter))
    some ({ p with
      eventCounter := p.eventCounter + 1
      core := core
      main := .push (cell.map fun i => (i, p.eventCounter)) }, .silent)
  | .push ptr => some (p.push (ptr.map fun x => (x.1, .event x.2)) .check .check)
  | .check =>
    some ({ p with
      shutdownRequested := p.shutdownRequested || decide (p.eventCounter = limit)
      main := .test }, .silent)
  | .makePill =>
    let (core, cell) := p.core.make (object .pill)
    some ({ p with core := core, main := .pushPill cell }, .silent)
  | .pushPill ptr => some (p.push (ptr.map fun i => (i, .pill)) .join .makePill)
  | .join =>
    match p.worker with
    | .finished => some ({ p with main := .finished }, .silent)
    | _ => none
  | .finished => none

def pooledWorker (p : PooledDrain size) : Option (PooledDrain size × DrainNote) :=
  match p.worker with
  | .pop =>
    match p.core.pop with
    | (core, none) => some ({ p with core := core }, .silent)
    | (core, some (i, .event id)) => some ({ p with core := core, worker := .work i id }, .silent)
    | (core, some (i, .pill)) =>
      some ({ p with core := core.free i, worker := .finished }, .silent)
  | .work i id =>
    some ({ p with core := p.core.free i, processed := p.processed ++ [id], worker := .pop },
      .handled id)
  | .finished => none

def pooledDrainStep (p : PooledDrain size) : DrainAction → Option (PooledDrain size × DrainNote)
  | .main => pooledMain limit object p
  | .worker => pooledWorker p
  | .signal => some ({ p with shutdownRequested := true }, .silent)

end Program

def pooledDrainInit {size : ℕ} (hsize : 0 < size) (cells : ℕ) (memory : ℕ → BitVec 64) :
    PooledDrain size where
  shutdownRequested := false
  eventCounter := 0
  main := .test
  worker := .pop
  core := .init hsize cells memory
  leaked := []
  processed := []

/-! ## The counted program -/

def PooledMain.view : PooledMain → DrainMain
  | .test => .test
  | .make => .make
  | .push ptr => .push (ptr.map Prod.snd)
  | .check => .check
  | .makePill => .makePill
  | .pushPill ptr => .pushPill ptr.isSome
  | .join => .join
  | .finished => .finished

def PooledWorker.view : PooledWorker → DrainWorker
  | .pop => .pop
  | .work _ id => .work id
  | .finished => .finished

def PooledMain.cells : PooledMain → List ℕ
  | .push ptr => ptr.toList.map Prod.fst
  | .pushPill ptr => ptr.toList
  | _ => []

def PooledWorker.cells : PooledWorker → List ℕ
  | .work i _ => [i]
  | _ => []

/-- The cells that are neither free nor in the conduit. -/
def PooledDrain.held {size : ℕ} (p : PooledDrain size) : List ℕ :=
  p.main.cells ++ (p.worker.cells ++ p.leaked)

def PooledDrain.view {size : ℕ} (p : PooledDrain size) (free : ℕ) (queue : List (Option Work)) :
    Drain where
  shutdownRequested := p.shutdownRequested
  eventCounter := p.eventCounter
  main := p.main.view
  worker := p.worker.view
  queue := queue
  free := free
  leaked := p.leaked.length
  processed := p.processed

/-- The program with its pointers, seen as the counted one. -/
def PooledDrain.SeenAs {size : ℕ} (c : DrainConfig) (p : PooledDrain size) (s : Drain) : Prop :=
  ∃ free queue, s = p.view free queue ∧ p.core.Sees c.cells p.held free queue

section Refines
variable {c : DrainConfig} {object : Work → BitVec 64} {p q : PooledDrain (c.room + 1)} {s : Drain}
  {e : DrainNote}

theorem pooledDrainInit_seenAs (hpos : 1 ≤ c.cells) (hcap : c.cells ≤ 2 ^ 32 - 1)
    (memory : ℕ → BitVec 64) :
    (pooledDrainInit (Nat.succ_pos c.room) c.cells memory).SeenAs c (drainInit c) :=
  ⟨c.cells, [], rfl, PooledConduit.init_sees (Nat.succ_pos c.room) hpos hcap memory⟩

/-- A `push` by the main thread, of the pointer that it has. -/
theorem push_follows {ptr : Option (ℕ × Work)} {free : ℕ} {queue : List (Option Work)}
    {accepted refused : PooledMain} (haccepted : accepted.cells = [])
    (hrefused : refused.cells = [])
    (hseen : p.core.Sees c.cells (ptr.toList.map Prod.fst ++ (p.worker.cells ++ p.leaked))
      free queue)
    (hpush : p.push ptr accepted refused = (q, e)) :
    ∃ s, (p.view free queue).push c (ptr.map Prod.snd) accepted.view refused.view = (s, e) ∧
      q.SeenAs c s := by
  rcases hseen.push with ⟨hfull, hpushed⟩ | ⟨hroom, core, hpushed, hcore⟩
  · simp only [PooledDrain.push, hpushed] at hpush
    cases hpush
    refine ⟨_, ?_, free, queue, rfl, ?_⟩
    · rw [Drain.push, if_neg (by simp only [PooledDrain.view]; omega)]
      cases ptr <;> simp [PooledDrain.view]
    · refine hseen.perm ?_
      rw [PooledDrain.held, hrefused, List.nil_append]
      rw [← List.append_assoc, ← List.append_assoc]
      exact List.perm_append_comm.append_right _
  · simp only [PooledDrain.push, hpushed] at hpush
    cases hpush
    have hlt := hseen.length_lt
    refine ⟨_, ?_, free, queue ++ [ptr.map Prod.snd], rfl, ?_⟩
    · rw [Drain.push, if_pos (by simp only [PooledDrain.view]; omega)]
      rfl
    · rw [PooledDrain.held, haccepted]
      exact hcore

/-- The main thread makes an event for itself. -/
theorem make_follows {free : ℕ} {queue : List (Option Work)}
    {core : PooledConduit Work (c.room + 1)}
    {cell : Option ℕ} {bits : BitVec 64} (counter : ℕ) (made : Option ℕ → PooledMain)
    (hcells : p.main.cells = []) (hmade : ∀ cell, (made cell).cells = cell.toList)
    (hseen : p.core.Sees c.cells p.held free queue) (hmake : p.core.make bits = (core, cell)) :
    (free = 0 ∧ cell = none ∨ free ≠ 0 ∧ ∃ i, cell = some i) ∧
      { p with eventCounter := counter, core := core, main := made cell }.SeenAs c
        ({ p with eventCounter := counter, core := core, main := made cell }.view
          (free - 1) queue) := by
  rw [PooledDrain.held, hcells, List.nil_append] at hseen
  rcases hseen.make bits with ⟨hfree, hnone⟩ | ⟨hfree, i, core', hsome, hcore⟩
  · rw [hmake] at hnone
    cases hnone
    subst hfree
    refine ⟨.inl ⟨rfl, rfl⟩, 0 - 1, queue, rfl, ?_⟩
    rw [PooledDrain.held, hmade]
    exact hseen
  · rw [hmake] at hsome
    cases hsome
    refine ⟨.inr ⟨by omega, i, rfl⟩, free - 1, queue, rfl, ?_⟩
    rw [PooledDrain.held, hmade]
    exact hcore

theorem main_follows (h : p.SeenAs c s) (hs : pooledMain c.limit object p = some (q, e)) :
    ∃ t, drainMain c s = some (t, e) ∧ q.SeenAs c t := by
  obtain ⟨free, queue, rfl, hseen⟩ := h
  cases hpc : p.main with
  | test =>
    simp only [pooledMain, hpc] at hs
    cases hs
    refine ⟨_, ?_, free, queue, rfl, ?_⟩
    · simp only [drainMain, PooledDrain.view, hpc, PooledMain.view]
      cases p.shutdownRequested <;> rfl
    · have hsame : (if p.shutdownRequested then PooledMain.makePill else .make).cells =
          p.main.cells := by
        rw [hpc]
        split_ifs <;> rfl
      rw [PooledDrain.held, hsame]
      exact hseen
  | make =>
    rcases hmake : p.core.make (object (.event p.eventCounter)) with ⟨core, cell⟩
    simp only [pooledMain, hpc, hmake] at hs
    cases hs
    obtain ⟨hfree, hq⟩ := make_follows (p.eventCounter + 1)
      (fun cell => .push (cell.map fun i => (i, p.eventCounter))) (by rw [hpc]; rfl)
      (fun cell => by cases cell <;> rfl) hseen hmake
    refine ⟨_, ?_, hq⟩
    simp only [drainMain, PooledDrain.view, hpc, PooledMain.view]
    rcases hfree with ⟨rfl, rfl⟩ | ⟨hne, i, rfl⟩
    · rfl
    · rw [if_neg hne]
      rfl
  | push ptr =>
    simp only [pooledMain, hpc, Option.some.injEq] at hs
    have hcells : (ptr.map fun x => (x.1, Work.event x.2)).toList.map Prod.fst =
        p.main.cells := by
      rw [hpc]
      cases ptr <;> rfl
    rw [PooledDrain.held, ← hcells] at hseen
    obtain ⟨t, ht, hq⟩ := push_follows rfl rfl hseen hs
    refine ⟨t, ?_, hq⟩
    simp only [drainMain, PooledMain.view, ← ht]
    cases ptr <;> simp [PooledDrain.view, hpc, PooledMain.view]
  | check =>
    simp only [pooledMain, hpc] at hs
    cases hs
    refine ⟨_, ?_, free, queue, rfl, ?_⟩
    · simp only [drainMain, PooledDrain.view, hpc, PooledMain.view]
    · rw [PooledDrain.held, hpc] at hseen
      exact hseen
  | makePill =>
    rcases hmake : p.core.make (object .pill) with ⟨core, cell⟩
    simp only [pooledMain, hpc, hmake] at hs
    cases hs
    obtain ⟨hfree, hq⟩ := make_follows p.eventCounter .pushPill (by rw [hpc]; rfl)
      (fun _ => rfl) hseen hmake
    refine ⟨_, ?_, hq⟩
    simp only [drainMain, PooledDrain.view, hpc, PooledMain.view]
    rcases hfree with ⟨rfl, rfl⟩ | ⟨hne, i, rfl⟩
    · rfl
    · rw [if_neg hne]
      rfl
  | pushPill ptr =>
    simp only [pooledMain, hpc, Option.some.injEq] at hs
    have hcells : (ptr.map fun i => (i, Work.pill)).toList.map Prod.fst = p.main.cells := by
      rw [hpc]
      cases ptr <;> rfl
    rw [PooledDrain.held, ← hcells] at hseen
    obtain ⟨t, ht, hq⟩ := push_follows rfl rfl hseen hs
    refine ⟨t, ?_, hq⟩
    simp only [drainMain, PooledMain.view, ← ht]
    cases ptr <;> simp [PooledDrain.view, hpc, PooledMain.view]
  | join =>
    simp only [pooledMain, hpc] at hs
    split at hs
    · rename_i hworker
      cases hs
      refine ⟨_, ?_, free, queue, rfl, ?_⟩
      · simp only [drainMain, PooledDrain.view, hpc, hworker, PooledMain.view, PooledWorker.view]
      · rw [PooledDrain.held, hpc] at hseen
        exact hseen
    · cases hs
  | finished => simp [pooledMain, hpc] at hs

theorem worker_follows (hcap : c.cells ≤ 2 ^ 32 - 1) (h : p.SeenAs c s)
    (hs : pooledWorker p = some (q, e)) : ∃ t, drainWorker s = some (t, e) ∧ q.SeenAs c t := by
  obtain ⟨free, queue, rfl, hseen⟩ := h
  cases hpc : p.worker with
  | finished => simp [pooledWorker, hpc] at hs
  | work i id =>
    simp only [pooledWorker, hpc] at hs
    cases hs
    refine ⟨_, ?_, free + 1, queue, rfl, ?_⟩
    · simp only [drainWorker, PooledDrain.view, hpc, PooledWorker.view]
    · rw [PooledDrain.held, hpc] at hseen
      exact (hseen.perm List.perm_middle).free hcap
  | pop =>
    rw [PooledDrain.held, hpc] at hseen
    rcases hseen.pop with ⟨rfl, hpopped⟩ | ⟨ptr, core, rest, rfl, hpopped, hcore⟩
    · simp only [pooledWorker, hpc, hpopped] at hs
      cases hs
      refine ⟨_, ?_, free, [], rfl, hseen⟩
      simp only [drainWorker, PooledDrain.view, hpc, PooledWorker.view]
    · -- the cell of the pointer is the worker's from now on
      have hworker : ∀ cells, ptr.toList.map Prod.fst = cells →
          core.Sees c.cells (p.main.cells ++ (cells ++ p.leaked)) free rest := by
        rintro cells rfl
        refine hcore.perm ?_
        rw [← List.append_assoc, ← List.append_assoc p.main.cells]
        exact List.perm_append_comm.append_right _
      rcases ptr with _ | ⟨i, _ | _⟩
      · simp only [pooledWorker, hpc, hpopped] at hs
        cases hs
        refine ⟨_, ?_, free, rest, rfl, hworker [] rfl⟩
        simp only [drainWorker, PooledDrain.view, hpc, PooledWorker.view, Option.map_none]
      · rename_i id
        simp only [pooledWorker, hpc, hpopped] at hs
        cases hs
        refine ⟨_, ?_, free, rest, rfl, hworker [i] rfl⟩
        simp only [drainWorker, PooledDrain.view, hpc, PooledWorker.view, Option.map_some]
      · simp only [pooledWorker, hpc, hpopped] at hs
        cases hs
        refine ⟨_, ?_, free + 1, rest, rfl, ?_⟩
        · simp only [drainWorker, PooledDrain.view, hpc, PooledWorker.view, Option.map_some]
        · exact ((hworker [i] rfl).perm List.perm_middle).free hcap

theorem step_follows (hcap : c.cells ≤ 2 ^ 32 - 1) (h : p.SeenAs c s) {a : DrainAction}
    (hs : pooledDrainStep c.limit object p a = some (q, e)) :
    ∃ t, drainStep c s a = some (t, e) ∧ q.SeenAs c t := by
  cases a with
  | main => exact main_follows h hs
  | worker => exact worker_follows hcap h hs
  | signal =>
    obtain ⟨free, queue, rfl, hseen⟩ := h
    cases hs
    exact ⟨_, rfl, free, queue, rfl, hseen⟩

/-- The program with its pointers does nothing that the counted one does not. -/
theorem pooled_drain_refines (hpos : 1 ≤ c.cells) (hcap : c.cells ≤ 2 ^ 32 - 1)
    (memory : ℕ → BitVec 64) {es : List DrainNote}
    (h : Exec (pooledDrainStep c.limit object) (fun _ _ => True)
      (pooledDrainInit (Nat.succ_pos c.room) c.cells memory) es p) :
    ∃ s, Exec (drainStep c) (fun _ _ => True) (drainInit c) es s ∧ p.SeenAs c s := by
  refine h.follow (PooledDrain.SeenAs c) ?_ (pooledDrainInit_seenAs hpos hcap memory)
  intro p s a q e hseen _ hs
  obtain ⟨t, ht, hq⟩ := step_follows hcap hseen hs
  exact ⟨a, t, trivial, ht, hq⟩

end Refines

end ConduitRuntime.Programs
