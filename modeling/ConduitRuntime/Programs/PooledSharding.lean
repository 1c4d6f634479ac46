import ConduitRuntime.Foundations.Refinement
import ConduitRuntime.Foundations.Shares
import ConduitRuntime.Programs.Sharding
import ConduitRuntime.Ring.PooledConduit

/-! The programs `03_sharding` and `02_fan_in_polling` over the pool of the core, with pointers to
its cells in the conduits. Every run of them is a run of the model with the counted pool, with the
same answers. -/
namespace ConduitRuntime.Programs
open Execution Memory Routing Shares ConduitRuntime.Ring PooledConduit
set_option autoImplicit false

/-- As `ShardMain`, with the cells. -/
inductive PooledShardMain
  | make (i : ℕ)
  | on (i : ℕ) (task : Option (ℕ × Job))
  | makeStops (stops : List (Option (ℕ × Job)))
  | onStops (tried untried : List (Option (ℕ × Job)))
  | join (k : ℕ) (stops : List (Option (ℕ × Job)))
  | finished

inductive PooledShardPc
  | pop
  | got (cell : ℕ) (job : Job)
  | finished

structure PooledShardWorker where
  pc : PooledShardPc
  processed : List ℕ

structure PooledSharding (n size : ℕ) where
  main : PooledShardMain
  loadBalancer : Switch ℕ n
  tracks : ℕ → Conduit (ℕ × Job) size
  memory : Pool
  workers : ℕ → PooledShardWorker

section Program
variable {n size : ℕ} (tasks : ℕ) (object : Job → BitVec 64)

/-- The end of the handles with these pointers, the last one first. -/
def freeAll (memory : Pool) (ptrs : List (Option (ℕ × Job))) : Pool :=
  (cellsOf ptrs).foldr (fun i memory => memory.free i) memory

/-- `memory.make`, with what it makes. -/
def makePtr (memory : Pool) (job : Job) : Pool × Option (ℕ × Job) :=
  let (memory, ev) := memory.make () (object job)
  (memory, ev.ptr.map fun i => (i, job))

def PooledSharding.on (p : PooledSharding n size) (ptr : Option (ℕ × Job)) :
    PooledSharding n size × Option (ℕ × Job) :=
  let (loadBalancer, tracks, rest) :=
    p.loadBalancer.on p.tracks (⟨ptr, some .releaseToPool, some ()⟩ : EventPtr (ℕ × Job) Unit)
  ({ p with loadBalancer := loadBalancer, tracks := tracks }, rest.ptr)

def pooledShardMain (p : PooledSharding n size) : Option (PooledSharding n size × ShardNote) :=
  match p.main with
  | .make i =>
    if i < tasks then
      let (memory, task) := makePtr object p.memory (.task i)
      some ({ p with memory := memory, main := .on i task }, .silent)
    else some ({ p with main := .makeStops [] }, .silent)
  | .on i task =>
    let (q, rest) := p.on task
    some ({ q with memory := freeAll q.memory [rest], main := .make (i + 1) },
      .gave (task.isSome && rest.isNone))
  | .makeStops stops =>
    if stops.length < n then
      let (memory, stop) := makePtr object p.memory .stop
      some ({ p with memory := memory, main := .makeStops (stops ++ [stop]) }, .silent)
    else some ({ p with main := .onStops [] stops }, .silent)
  | .onStops tried [] => some ({ p with main := .join 0 tried }, .silent)
  | .onStops tried (stop :: untried) =>
    let (q, rest) := p.on stop
    some ({ q with main := .onStops (tried ++ [rest]) untried }, .gave (stop.isSome && rest.isNone))
  | .join k stops =>
    if k < n then
      match (p.workers k).pc with
      | .finished => some ({ p with main := .join (k + 1) stops }, .silent)
      | _ => none
    else some ({ p with memory := freeAll p.memory stops, main := .finished }, .silent)
  | .finished => none

def pooledShardWorker (p : PooledSharding n size) (j : ℕ) :
    Option (PooledSharding n size × ShardNote) :=
  if j < n then
    match (p.workers j).pc with
    | .pop =>
      let (track, ev) := (p.tracks j).pop ()
      match ev.ptr with
      | none => some ({ p with tracks := Function.update p.tracks j track }, .silent)
      | some (i, job) =>
        some ({ p with
          tracks := Function.update p.tracks j track
          workers := Function.update p.workers j { p.workers j with pc := .got i job } }, .silent)
    | .got i (.task id) =>
      some ({ p with
        memory := p.memory.free i
        workers := Function.update p.workers j ⟨.pop, (p.workers j).processed ++ [id]⟩ }, .silent)
    | .got i .stop =>
      some ({ p with
        memory := p.memory.free i
        workers := Function.update p.workers j { p.workers j with pc := .finished } }, .silent)
    | .finished => none
  else none

def pooledShardStep (p : PooledSharding n size) :
    ShardAction → Option (PooledSharding n size × ShardNote)
  | .main => pooledShardMain tasks object p
  | .worker j => pooledShardWorker p j

end Program

variable {n size : ℕ}

def pooledShardInit (hsize : 0 < size) (cells : ℕ) (words : ℕ → BitVec 64)
    (ring : ℕ → ℕ → Option (ℕ × Job)) : PooledSharding n size where
  main := .make 0
  loadBalancer := .numbered n
  tracks j := .fresh hsize (ring j)
  memory := .init cells words
  workers _ := ⟨.pop, []⟩

/-! ## The counted program -/

def jobsOf (ptrs : List (Option (ℕ × Job))) : List (Option Job) := ptrs.map (Option.map Prod.snd)

def PooledShardMain.view : PooledShardMain → ShardMain
  | .make i => .make i
  | .on i task => .on i (task.map Prod.snd)
  | .makeStops stops => .makeStops (jobsOf stops)
  | .onStops tried untried => .onStops (jobsOf tried) (jobsOf untried)
  | .join k stops => .join k (jobsOf stops)
  | .finished => .finished

/-- The pointers that the main thread has. -/
def PooledShardMain.ptrs : PooledShardMain → List (Option (ℕ × Job))
  | .on _ task => [task]
  | .makeStops stops => stops
  | .onStops tried untried => tried ++ untried
  | .join _ stops => stops
  | _ => []

def PooledShardWorker.view (w : PooledShardWorker) : ShardWorker where
  pc := match w.pc with
    | .pop => .pop
    | .got _ job => .got job
    | .finished => .finished
  processed := w.processed

def PooledShardWorker.cells (w : PooledShardWorker) : List ℕ :=
  match w.pc with
  | .got i _ => [i]
  | _ => []

namespace PooledSharding

/-- The cells of the shard `j`, on the way to its worker and with it. -/
def shard (p : PooledSharding n size) (j : ℕ) : List ℕ :=
  cellsOf (p.tracks j).contents ++ (p.workers j).cells

def shards (p : PooledSharding n size) : List ℕ := (List.range n).flatMap p.shard

/-- The cells that are not free. -/
def held (p : PooledSharding n size) : List ℕ := cellsOf p.main.ptrs ++ p.shards

def view (p : PooledSharding n size) (free : ℕ) : Sharding n size where
  main := p.main.view
  loadBalancer := p.loadBalancer
  tracks j := (p.tracks j).map Prod.snd
  free := free
  workers j := (p.workers j).view

/-- The program with its pointers, seen as the counted one. -/
structure SeenAs (c : ShardConfig) (p : PooledSharding n size) (s : Sharding n size) : Prop where
  bound : Numbered n p.loadBalancer.outputs
  view_eq : s = p.view s.free
  accounts : p.memory.Accounts c.cells p.held
  count : s.free + p.held.length = c.cells

variable {c : ShardConfig} {object : Job → BitVec 64} {p q : PooledSharding n size}
  {s : Sharding n size} {e : ShardNote}

/-! ## What happens to the cells -/

/-- No cell is made or freed. -/
theorem SeenAs.moved (h : p.SeenAs c s) (hbound : Numbered n q.loadBalancer.outputs)
    (hmemory : q.memory = p.memory) (hperm : p.held.Perm q.held) :
    q.SeenAs c (q.view s.free) := by
  refine ⟨hbound, rfl, ?_, ?_⟩
  · rw [hmemory]
    exact h.accounts.perm hperm
  · rw [← hperm.length_eq]
    exact h.count

theorem SeenAs.made (h : p.SeenAs c s) {job : Job} {ptr : Option (ℕ × Job)}
    (hmake : makePtr object p.memory job = (q.memory, ptr))
    (hbound : q.loadBalancer = p.loadBalancer) (hperm : (cellsOf [ptr] ++ p.held).Perm q.held) :
    ∃ free, makeJob s.free job = (free, ptr.map Prod.snd) ∧ q.SeenAs c (q.view free) := by
  have hcount := h.count
  have hbound' : Numbered n q.loadBalancer.outputs := by
    rw [hbound]
    exact h.bound
  rcases Nat.lt_or_eq_of_le h.accounts.length_le with hlt | hfull
  · obtain ⟨i, hptr, hacc⟩ := h.accounts.make hlt () (object job)
    have hpair : ((p.memory.make () (object job)).1, some (i, job)) = (q.memory, ptr) := by
      rw [← hmake]
      simp only [makePtr, hptr, Option.map_some]
    obtain ⟨hmemory, rfl⟩ := Prod.mk.inj hpair
    refine ⟨s.free - 1, ?_, hbound', rfl, ?_, ?_⟩
    · rw [makeJob, if_neg (by omega)]
      rfl
    · rw [← hmemory]
      exact hacc.perm hperm
    · have hlen := hperm.length_eq
      simp only [cellsOf, List.filterMap_cons, Option.map_some, List.filterMap_nil,
        List.singleton_append, List.length_cons] at hlen
      simp only [view]
      omega
  · have hnone := h.accounts.make_full hfull () (object job)
    have hpair : (p.memory, none) = (q.memory, ptr) := by
      rw [← hmake, makePtr, hnone]
      rfl
    obtain ⟨hmemory, rfl⟩ := Prod.mk.inj hpair
    refine ⟨0, ?_, hbound', rfl, ?_, ?_⟩
    · rw [makeJob, if_pos (by omega)]
      rfl
    · rw [← hmemory]
      exact h.accounts.perm hperm
    · have hlen := hperm.length_eq
      simp only [cellsOf, List.filterMap_cons, Option.map_none, List.filterMap_nil,
        List.nil_append] at hlen
      simp only [view]
      omega

theorem owned_jobsOf (ptrs : List (Option (ℕ × Job))) :
    owned (jobsOf ptrs) = (cellsOf ptrs).length := by
  induction ptrs with
  | nil => rfl
  | cons ptr ptrs ih =>
    cases ptr with
    | none => simpa [owned, jobsOf, cellsOf] using ih
    | some x => simpa [owned, jobsOf, cellsOf] using ih

theorem freeAll_accounts {cells : ℕ} (hcap : cells ≤ 2 ^ 32 - 1) {memory : Pool}
    {ptrs : List (Option (ℕ × Job))} {rest : List ℕ}
    (h : memory.Accounts cells (cellsOf ptrs ++ rest)) :
    (freeAll memory ptrs).Accounts cells rest := by
  unfold freeAll
  generalize cellsOf ptrs = is at h
  induction is generalizing rest with
  | nil => exact h
  | cons i is ih => exact Pool.Accounts.free hcap (ih (h.perm List.perm_middle.symm))

/-- The handles `ptrs` come to their end. -/
theorem SeenAs.freed (hcap : c.cells ≤ 2 ^ 32 - 1) (h : p.SeenAs c s)
    (ptrs : List (Option (ℕ × Job))) (hmemory : q.memory = freeAll p.memory ptrs)
    (hbound : q.loadBalancer = p.loadBalancer) (hperm : p.held.Perm (cellsOf ptrs ++ q.held)) :
    q.SeenAs c (q.view (s.free + owned (jobsOf ptrs))) := by
  refine ⟨hbound ▸ h.bound, rfl, ?_, ?_⟩
  · rw [hmemory]
    exact freeAll_accounts hcap (h.accounts.perm hperm)
  · have hlen := hperm.length_eq
    have hcount := h.count
    rw [List.length_append] at hlen
    rw [owned_jobsOf]
    simp only [view]
    omega

/-- The shard `j` changes and no other does. -/
theorem shards_change {j : ℕ} (hj : j < n) (cells : List ℕ)
    (hother : ∀ i, i ≠ j → q.shard i = p.shard i) (hat : (q.shard j).Perm (cells ++ p.shard j)) :
    q.shards.Perm (cells ++ p.shards) := by
  have hchange := flatMap_range_change hj hother
  refine (List.perm_append_right_iff (p.shard j)).mp (hchange.trans ?_)
  refine (hat.append_left _).trans ?_
  rw [← List.append_assoc]
  exact List.perm_append_comm.append_right _

theorem on_view (p : PooledSharding n size) (ptr : Option (ℕ × Job)) (free : ℕ) :
    (p.view free).on (ptr.map Prod.snd) =
      ((p.on ptr).1.view free, (p.on ptr).2.map Prod.snd) := by
  have hmap := p.loadBalancer.on_map Prod.snd p.tracks
    (⟨ptr, some .releaseToPool, some ()⟩ : EventPtr (ℕ × Job) Unit)
  simp only [Sharding.on, PooledSharding.on, view, handle]
  rw [show (⟨ptr.map Prod.snd, some .releaseToPool, some ()⟩ : EventPtr Job Unit) =
    EventPtr.map Prod.snd ⟨ptr, some .releaseToPool, some ()⟩ from rfl, hmap]
  rfl

/-- What `on` takes from the main thread goes to one of the shards. -/
theorem on_moves (hbound : Numbered n p.loadBalancer.outputs) (hn : 0 < n)
    (ptr : Option (ℕ × Job)) :
    (p.on ptr).1.main = p.main ∧ (p.on ptr).1.memory = p.memory ∧
      Numbered n (p.on ptr).1.loadBalancer.outputs ∧
      (cellsOf [ptr] ++ p.shards).Perm (cellsOf [(p.on ptr).2] ++ (p.on ptr).1.shards) := by
  cases ptr with
  | none => exact ⟨rfl, rfl, hbound, .refl _⟩
  | some x =>
    rcases Switch.on_numbered hbound hn
      (show (⟨some x, some .releaseToPool, some ()⟩ : EventPtr (ℕ × Job) Unit).ptr = some x
        from rfl)
      with ⟨-, hon⟩ | ⟨j, hj, hroom, -, hon⟩
    · have hsame : p.on (some x) = (p, some x) := by
        rw [PooledSharding.on, hon]
      rw [hsame]
      exact ⟨rfl, rfl, hbound, .refl _⟩
    · have hgave : p.on (some x) = ({ p with
          loadBalancer := { p.loadBalancer with next := (j + 1) % n }
          tracks := Function.update p.tracks j ((p.tracks j).push (some x)).1 }, none) := by
        rw [PooledSharding.on, hon]
        rfl
      rw [hgave]
      refine ⟨rfl, rfl, hbound, (shards_change hj (cellsOf [some x]) ?_ ?_).symm⟩
      · intro i hi
        simp only [shard, Function.update_of_ne hi]
      · simp only [shard, Function.update_self]
        rw [((p.tracks j).push_of_room (some x) hroom).2, cellsOf_append]
        rw [← List.append_assoc]
        exact List.perm_append_comm.append_right _

/-! ## The main thread -/

theorem held_of {main : PooledShardMain} (h : p.main = main) :
    p.held = cellsOf main.ptrs ++ p.shards := by
  rw [held, h]

/-- What the counted program does at a point is read off from the view. -/
theorem shardMain_view (h : p.SeenAs c s) {main : PooledShardMain} (hpc : p.main = main) :
    shardMain c s = shardMain c { p.view s.free with main := main.view } := by
  conv_lhs => rw [h.view_eq]
  rw [view, hpc]

/-- The thread goes on without a call. -/
theorem SeenAs.goes (h : p.SeenAs c s) {main : PooledShardMain}
    (hptrs : cellsOf p.main.ptrs = cellsOf main.ptrs) :
    { p with main := main }.SeenAs c ({ p with main := main }.view s.free) := by
  refine h.moved h.bound rfl ?_
  rw [held, hptrs]
  exact .refl _

theorem make_follows (h : p.SeenAs c s) {i : ℕ} (hpc : p.main = .make i)
    (hs : pooledShardMain c.tasks object p = some (q, e)) :
    ∃ t, shardMain c s = some (t, e) ∧ q.SeenAs c t := by
  rw [shardMain_view h hpc]
  simp only [pooledShardMain, hpc] at hs
  simp only [shardMain, PooledShardMain.view]
  split_ifs at hs ⊢ with hi
  · rcases hmake : makePtr object p.memory (.task i) with ⟨memory, task⟩
    rw [hmake] at hs
    cases hs
    obtain ⟨free, hjob, hq⟩ := h.made (q := { p with memory := memory, main := .on i task })
      hmake rfl (by rw [held_of hpc]; exact .refl _)
    refine ⟨_, ?_, hq⟩
    simp only [view, hjob]
    rfl
  · cases hs
    exact ⟨_, rfl, h.goes (by rw [hpc]; rfl)⟩

theorem on_follows (hn : 0 < n) (hcap : c.cells ≤ 2 ^ 32 - 1) (h : p.SeenAs c s) {i : ℕ}
    {task : Option (ℕ × Job)} (hpc : p.main = .on i task)
    (hs : pooledShardMain c.tasks object p = some (q, e)) :
    ∃ t, shardMain c s = some (t, e) ∧ q.SeenAs c t := by
  simp only [pooledShardMain, hpc] at hs
  cases hs
  obtain ⟨-, hmemory, hbound, hperm⟩ := on_moves h.bound hn task
  -- the handle after the call, and then its end
  have hgiven : { (p.on task).1 with main := .on i (p.on task).2 }.SeenAs c
      ({ (p.on task).1 with main := .on i (p.on task).2 }.view s.free) :=
    h.moved hbound hmemory (by rw [held_of hpc]; exact hperm)
  have hq := hgiven.freed (q := { (p.on task).1 with
    memory := freeAll (p.on task).1.memory [(p.on task).2]
    main := .make (i + 1) }) hcap [(p.on task).2] rfl rfl (.refl _)
  refine ⟨_, ?_, hq⟩
  have hon := on_view p task s.free
  rw [← h.view_eq] at hon
  have hmain : s.main = .on i (task.map Prod.snd) := by
    rw [h.view_eq, view, hpc]
    rfl
  simp only [shardMain, hmain, hon, Option.isSome_map, Option.isNone_map]
  rfl

theorem makeStops_follows (h : p.SeenAs c s) {stops : List (Option (ℕ × Job))}
    (hpc : p.main = .makeStops stops) (hs : pooledShardMain c.tasks object p = some (q, e)) :
    ∃ t, shardMain c s = some (t, e) ∧ q.SeenAs c t := by
  rw [shardMain_view h hpc]
  simp only [pooledShardMain, hpc] at hs
  simp only [shardMain, PooledShardMain.view, jobsOf, List.length_map]
  split_ifs at hs ⊢ with hlen
  · rcases hmake : makePtr object p.memory .stop with ⟨memory, stop⟩
    rw [hmake] at hs
    cases hs
    have hperm : (cellsOf [stop] ++ p.held).Perm (cellsOf (stops ++ [stop]) ++ p.shards) := by
      rw [held_of hpc, ← List.append_assoc, cellsOf_append]
      exact List.perm_append_comm.append_right _
    obtain ⟨free, hjob, hq⟩ := h.made
      (q := { p with memory := memory, main := .makeStops (stops ++ [stop]) }) hmake rfl hperm
    refine ⟨_, ?_, hq⟩
    simp only [view, hjob]
    simp [PooledShardMain.view, jobsOf]
  · cases hs
    exact ⟨_, rfl, h.goes (by rw [hpc]; rfl)⟩

theorem onStops_follows (hn : 0 < n) (h : p.SeenAs c s) {tried untried : List (Option (ℕ × Job))}
    (hpc : p.main = .onStops tried untried)
    (hs : pooledShardMain c.tasks object p = some (q, e)) :
    ∃ t, shardMain c s = some (t, e) ∧ q.SeenAs c t := by
  cases untried with
  | nil =>
    rw [shardMain_view h hpc]
    simp only [pooledShardMain, hpc] at hs
    cases hs
    exact ⟨_, rfl, h.goes (by rw [hpc]; simp [PooledShardMain.ptrs])⟩
  | cons stop untried =>
    simp only [pooledShardMain, hpc] at hs
    cases hs
    obtain ⟨-, hmemory, hbound, hperm⟩ := on_moves h.bound hn stop
    have hq : { (p.on stop).1 with main := .onStops (tried ++ [(p.on stop).2]) untried }.SeenAs c
        ({ (p.on stop).1 with main := .onStops (tried ++ [(p.on stop).2]) untried }.view
          s.free) := by
      refine h.moved hbound hmemory ?_
      rw [held_of hpc]
      refine (cellsOf_middle tried stop untried _).trans ((hperm.append_left _).trans ?_)
      refine (cellsOf_middle tried (p.on stop).2 untried _).symm.trans ?_
      rw [held, PooledShardMain.ptrs, List.append_assoc, List.singleton_append]
      exact .refl _
    refine ⟨_, ?_, hq⟩
    have hon := on_view p stop s.free
    rw [← h.view_eq] at hon
    have hmain : s.main = .onStops (jobsOf tried) (stop.map Prod.snd :: jobsOf untried) := by
      rw [h.view_eq, view, hpc]
      rfl
    simp only [shardMain, hmain, hon, Option.isSome_map, Option.isNone_map]
    simp [view, PooledShardMain.view, jobsOf]

theorem join_follows (hcap : c.cells ≤ 2 ^ 32 - 1) (h : p.SeenAs c s) {k : ℕ}
    {stops : List (Option (ℕ × Job))} (hpc : p.main = .join k stops)
    (hs : pooledShardMain c.tasks object p = some (q, e)) :
    ∃ t, shardMain c s = some (t, e) ∧ q.SeenAs c t := by
  rw [shardMain_view h hpc]
  simp only [pooledShardMain, hpc] at hs
  simp only [shardMain, PooledShardMain.view]
  by_cases hk : k < n
  · rw [if_pos hk] at hs ⊢
    split at hs
    · rename_i hdone
      cases hs
      refine ⟨_, ?_, h.goes (by rw [hpc]; rfl)⟩
      rw [if_pos (by simp only [view, PooledShardWorker.view, hdone])]
      rfl
    · cases hs
  · rw [if_neg hk] at hs ⊢
    cases hs
    have hq := h.freed (q := { p with memory := freeAll p.memory stops, main := .finished }) hcap
      stops rfl rfl (by rw [held_of hpc]; exact .refl _)
    exact ⟨_, rfl, hq⟩

theorem main_follows (hn : 0 < n) (hcap : c.cells ≤ 2 ^ 32 - 1) (h : p.SeenAs c s)
    (hs : pooledShardMain c.tasks object p = some (q, e)) :
    ∃ t, shardMain c s = some (t, e) ∧ q.SeenAs c t := by
  cases hpc : p.main with
  | finished => simp [pooledShardMain, hpc] at hs
  | make i => exact make_follows h hpc hs
  | on i task => exact on_follows hn hcap h hpc hs
  | makeStops stops => exact makeStops_follows h hpc hs
  | onStops tried untried => exact onStops_follows hn h hpc hs
  | join k stops => exact join_follows hcap h hpc hs

/-! ## The workers -/

/-- `pop` takes the cell of the pointer out of the conduit. -/
theorem cellsOf_pop (track : Conduit (ℕ × Job) size) :
    cellsOf track.contents =
      (track.pop ()).2.ptr.toList.map Prod.fst ++ cellsOf (track.pop ()).1.contents := by
  cases hc : track.contents with
  | nil =>
    rw [track.pop_of_empty () hc, hc]
    rfl
  | cons x xs =>
    obtain ⟨hev, hrest⟩ := track.pop_of_cons () hc
    rw [hev, hrest, cellsOf_cons]

theorem workers_view (p : PooledSharding n size) (j : ℕ) (worker : PooledShardWorker) :
    (fun i => (Function.update p.workers j worker i).view) =
      Function.update (fun i => (p.workers i).view) j worker.view :=
  Function.comp_update PooledShardWorker.view p.workers j worker

/-- The worker's event comes to its end. -/
theorem SeenAs.ended (hcap : c.cells ≤ 2 ^ 32 - 1) (h : p.SeenAs c s) {j i : ℕ} {job : Job}
    (hj : j < n) (hpc : (p.workers j).pc = .got i job) {worker : PooledShardWorker}
    (hworker : worker.cells = []) :
    { p with
      memory := p.memory.free i
      workers := Function.update p.workers j worker }.SeenAs c
        ({ p with
          memory := p.memory.free i
          workers := Function.update p.workers j worker }.view (s.free + 1)) := by
  refine h.freed hcap [some (i, job)] rfl rfl ?_
  have hcell : (p.workers j).cells = [i] := by rw [PooledShardWorker.cells, hpc]
  have hshards : p.shards.Perm
      ([i] ++ { p with workers := Function.update p.workers j worker }.shards) := by
    refine shards_change hj [i] (fun k hk => ?_) ?_
    · simp only [shard, Function.update_of_ne hk]
    · simp only [shard, Function.update_self, hcell, hworker, List.append_nil]
      exact List.perm_append_comm
  refine (hshards.append_left _).trans ?_
  rw [← List.append_assoc]
  exact List.perm_append_comm.append_right _

/-- The worker's pointer moves from the conduit to the worker. -/
theorem SeenAs.popped (h : p.SeenAs c s) {j : ℕ} (hj : j < n) (hpc : (p.workers j).pc = .pop)
    (worker : PooledShardWorker)
    (hworker : worker.cells = ((p.tracks j).pop ()).2.ptr.toList.map Prod.fst) :
    { p with
      tracks := Function.update p.tracks j ((p.tracks j).pop ()).1
      workers := Function.update p.workers j worker }.SeenAs c
        ({ p with
          tracks := Function.update p.tracks j ((p.tracks j).pop ()).1
          workers := Function.update p.workers j worker }.view s.free) := by
  have hnone : (p.workers j).cells = [] := by rw [PooledShardWorker.cells, hpc]
  refine h.moved h.bound rfl (List.Perm.append_left _ ?_)
  refine (shards_change hj [] (fun k hk => ?_) ?_).symm
  · simp only [shard, Function.update_of_ne hk]
  · simp only [shard, Function.update_self, hworker, hnone, List.append_nil, List.nil_append]
    rw [cellsOf_pop (p.tracks j)]
    exact List.perm_append_comm

theorem pop_follows (h : p.SeenAs c s) {j : ℕ} (hj : j < n) (hpc : (p.workers j).pc = .pop)
    (hs : pooledShardWorker p j = some (q, e)) :
    ∃ t, shardWorker s j = some (t, e) ∧ q.SeenAs c t := by
  have hview : ((p.view s.free).workers j).pc = .pop := by
    simp only [view, PooledShardWorker.view, hpc]
  have hpop : ((p.view s.free).tracks j).pop () =
      (((p.tracks j).pop ()).1.map Prod.snd, ((p.tracks j).pop ()).2.map Prod.snd) :=
    (p.tracks j).pop_map Prod.snd ()
  rw [h.view_eq]
  simp only [pooledShardWorker, if_pos hj, hpc] at hs
  simp only [shardWorker, if_pos hj, hview, hpop, EventPtr.map]
  rcases hptr : ((p.tracks j).pop ()).2.ptr with _ | ⟨i, job⟩
  · simp only [hptr] at hs
    cases hs
    have hq := h.popped hj hpc (p.workers j) (by
      rw [hptr, PooledShardWorker.cells, hpc]
      rfl)
    rw [Function.update_eq_self] at hq
    refine ⟨_, ?_, hq⟩
    simp only [view, Option.map_none, update_map]
  · simp only [hptr] at hs
    cases hs
    have hq := h.popped hj hpc { p.workers j with pc := .got i job } (by
      rw [hptr]
      rfl)
    refine ⟨_, ?_, hq⟩
    simp only [view, Option.map_some, update_map, workers_view]
    rfl

theorem got_follows (hcap : c.cells ≤ 2 ^ 32 - 1) (h : p.SeenAs c s) {j i : ℕ} {job : Job}
    (hj : j < n) (hpc : (p.workers j).pc = .got i job)
    (hs : pooledShardWorker p j = some (q, e)) :
    ∃ t, shardWorker s j = some (t, e) ∧ q.SeenAs c t := by
  have hview : ((p.view s.free).workers j).pc = .got job := by
    simp only [view, PooledShardWorker.view, hpc]
  rw [h.view_eq]
  simp only [pooledShardWorker, if_pos hj, hpc] at hs
  simp only [shardWorker, if_pos hj, hview]
  cases job with
  | task id =>
    cases hs
    refine ⟨_, ?_, h.ended hcap hj hpc rfl⟩
    simp only [view, workers_view]
    rfl
  | stop =>
    cases hs
    refine ⟨_, ?_, h.ended hcap hj hpc rfl⟩
    simp only [view, workers_view]
    rfl

theorem worker_follows (hcap : c.cells ≤ 2 ^ 32 - 1) (h : p.SeenAs c s) {j : ℕ}
    (hs : pooledShardWorker p j = some (q, e)) :
    ∃ t, shardWorker s j = some (t, e) ∧ q.SeenAs c t := by
  by_cases hj : j < n
  · cases hpc : (p.workers j).pc with
    | finished => simp [pooledShardWorker, hj, hpc] at hs
    | got i job => exact got_follows hcap h hj hpc hs
    | pop => exact pop_follows h hj hpc hs
  · simp [pooledShardWorker, hj] at hs

theorem init_seenAs (hpos : 1 ≤ c.cells) (hcap : c.cells ≤ 2 ^ 32 - 1) (hsize : 0 < size)
    (words : ℕ → BitVec 64) (ring : ℕ → ℕ → Option (ℕ × Job)) :
    (pooledShardInit hsize c.cells words ring : PooledSharding n size).SeenAs c
      (shardInit c hsize fun j k => (ring j k).map Prod.snd) := by
  have hheld : (pooledShardInit hsize c.cells words ring : PooledSharding n size).held = [] := by
    simp [held, shards, shard, pooledShardInit, PooledShardMain.ptrs, cellsOf,
      PooledShardWorker.cells]
  refine ⟨init_bound c hsize fun j k => (ring j k).map Prod.snd, rfl, ?_, ?_⟩
  · rw [hheld]
    exact Pool.init_accounts hpos hcap words
  · rw [hheld]
    rfl

end PooledSharding

/-- The programs with their pointers do nothing that the counted one does not. -/
theorem pooled_sharding_refines {c : ShardConfig} (hn : 0 < n) (hpos : 1 ≤ c.cells)
    (hcap : c.cells ≤ 2 ^ 32 - 1) (hsize : 0 < size) (object : Job → BitVec 64)
    (words : ℕ → BitVec 64) (ring : ℕ → ℕ → Option (ℕ × Job)) {es : List ShardNote}
    {p : PooledSharding n size}
    (h : Exec (pooledShardStep c.tasks object) (fun _ _ => True)
      (pooledShardInit hsize c.cells words ring) es p) :
    ∃ s, Exec (shardStep c) (fun _ _ => True)
      (shardInit c hsize fun j k => (ring j k).map Prod.snd) es s ∧ p.SeenAs c s := by
  refine h.follow (PooledSharding.SeenAs c) ?_
    (PooledSharding.init_seenAs hpos hcap hsize words ring)
  intro p s a q e hseen _ hs
  cases a with
  | main =>
    obtain ⟨t, ht, hq⟩ := PooledSharding.main_follows hn hcap hseen hs
    exact ⟨.main, t, trivial, ht, hq⟩
  | worker j =>
    obtain ⟨t, ht, hq⟩ := PooledSharding.worker_follows hcap hseen hs
    exact ⟨.worker j, t, trivial, ht, hq⟩

end ConduitRuntime.Programs
