import ConduitRuntime.Memory.PoolAccount
import ConduitRuntime.Programs.NetworkRouting

/-! The loop of `02_deterministic_network_routing` with the pool that the ticks are from: a pointer
is the number of a cell with the tick in it, and a tick that the switch does not take is freed at
the end of its iteration. -/
namespace ConduitRuntime.Programs
open Memory Routing ConduitRuntime.Ring
set_option autoImplicit false

variable {T : Type} {n m size outSize : ℕ}

def freeTicks (memory : Pool) (ticks : List (ℕ × T)) : Pool :=
  ticks.foldl (fun memory tick => memory.free tick.1) memory

def pooledRouteTick (memory : Pool) (r : Router (ℕ × T) n m size outSize) :
    Pool × Router (ℕ × T) n m size outSize × Bool :=
  let (ingressRouter, feeds, tick) := r.ingressRouter.poll r.feeds ()
  match tick.ptr with
  | none => (memory, { r with ingressRouter := ingressRouter, feeds := feeds }, false)
  | some a =>
    let (egressRouter, exchanges, rest) := r.egressRouter.on r.exchanges tick
    (freeTicks memory rest.ptr.toList,
      ⟨ingressRouter, feeds, egressRouter, exchanges, r.routed ++ [a], r.freed ++ rest.ptr.toList⟩,
      true)

def pooledRouteLoop : ℕ → Pool → Router (ℕ × T) n m size outSize →
    Option (Pool × Router (ℕ × T) n m size outSize)
  | 0, _, _ => none
  | fuel + 1, memory, r =>
    match pooledRouteTick memory r with
    | (memory', r', false) => some (memory', r')
    | (memory', r', true) => pooledRouteLoop fuel memory' r'

/-- The pool does not decide where a tick goes; it gets back what `freed` lists. -/
theorem pooledRouteTick_eq (memory : Pool) (r : Router (ℕ × T) n m size outSize) :
    ∃ ticks, (routeTick r).1.freed = r.freed ++ ticks ∧
      pooledRouteTick memory r = (freeTicks memory ticks, routeTick r) := by
  rcases hpoll : r.ingressRouter.poll r.feeds () with ⟨ingressRouter, feeds, tick⟩
  cases hptr : tick.ptr with
  | none =>
    refine ⟨[], ?_, ?_⟩
    · simp only [routeTick, hpoll, hptr, List.append_nil]
    · simp only [pooledRouteTick, routeTick, hpoll, hptr]
      rfl
  | some a =>
    rcases hon : r.egressRouter.on r.exchanges tick with ⟨egressRouter, exchanges, rest⟩
    refine ⟨rest.ptr.toList, ?_, ?_⟩
    · simp only [routeTick, hpoll, hptr, hon]
    · simp only [pooledRouteTick, routeTick, hpoll, hptr, hon]

theorem pooledRouteLoop_eq {fuel : ℕ} {r r' : Router (ℕ × T) n m size outSize}
    (h : routeLoop fuel r = some r') (memory : Pool) :
    ∃ ticks, r'.freed = r.freed ++ ticks ∧
      pooledRouteLoop fuel memory r = some (freeTicks memory ticks, r') := by
  induction fuel generalizing r memory with
  | zero => cases h
  | succ fuel ih =>
    obtain ⟨ticks, hfreed, htick⟩ := pooledRouteTick_eq memory r
    rcases hroute : routeTick r with ⟨r₁, _ | _⟩
    · simp only [routeLoop, hroute] at h
      cases h
      rw [hroute] at hfreed htick
      exact ⟨ticks, hfreed, by simp only [pooledRouteLoop, htick]⟩
    · simp only [routeLoop, hroute] at h
      rw [hroute] at hfreed htick
      obtain ⟨more, hmore, hloop⟩ := ih h (freeTicks memory ticks)
      refine ⟨ticks ++ more, ?_, ?_⟩
      · rw [hmore, hfreed, List.append_assoc]
      · simp only [pooledRouteLoop, htick, hloop]
        rw [freeTicks, freeTicks, freeTicks, List.foldl_append]

theorem freeTicks_accounts {cells : ℕ} (hcap : cells ≤ 2 ^ 32 - 1) {memory : Pool}
    {ticks : List (ℕ × T)} {rest : List ℕ}
    (h : memory.Accounts cells (ticks.map Prod.fst ++ rest)) :
    (freeTicks memory ticks).Accounts cells rest := by
  induction ticks generalizing memory with
  | nil => exact h
  | cons tick ticks ih => exact ih (Pool.Accounts.free hcap h)

/-- At the end of the loop the pool has every cell back but those of the ticks that the exchanges
took. -/
theorem pooled_routing_accounts {cells : ℕ} (hcap : cells ≤ 2 ^ 32 - 1) (hm : 0 < m)
    (feeds : ℕ → Conduit (ℕ × T) size) (f : ℕ → List (ℕ × T))
    (hf : ∀ j < n, (feeds j).contents = (f j).map some) (hsize : 0 < outSize)
    (ring : ℕ → ℕ → Option (ℕ × T)) {memory : Pool}
    (hmemory : memory.Accounts cells (((List.range n).flatMap f).map Prod.fst)) {fuel : ℕ}
    (hfuel : ((List.range n).flatMap f).length < fuel) :
    ∃ memory', ∃ r : Router (ℕ × T) n m size outSize,
      routeLoop fuel (routerInit feeds hsize ring) = some r ∧
      pooledRouteLoop fuel memory (routerInit feeds hsize ring) = some (memory', r) ∧
      memory'.Accounts cells ((r.routed.take (egressRoom m outSize)).map Prod.fst) := by
  obtain ⟨r, hrun, hd, -, hperm, -⟩ := loop_ends hm fuel (init_fed hsize ring hf)
    (init_dealtOut feeds hsize ring) (by simpa [routerInit] using hfuel)
  obtain ⟨ticks, hticks, hloop⟩ := pooledRouteLoop_eq hrun memory
  have hfreed : ticks = r.routed.drop (egressRoom m outSize) := by
    rw [← hd.freed, hticks]
    rfl
  refine ⟨_, r, hrun, hloop, freeTicks_accounts hcap (hmemory.perm ?_)⟩
  rw [hfreed, ← List.map_append]
  refine (hperm.symm.map Prod.fst).trans (List.Perm.map Prod.fst ?_)
  have hsplit := List.take_append_drop (egressRoom m outSize) r.routed
  conv_lhs => rw [← hsplit]
  exact List.perm_append_comm

end ConduitRuntime.Programs
