import ConduitRuntime.Routing.Numbered

/-! The programs `03_sharding` and `02_fan_in_polling`: the main thread makes tasks and gives them
to a switch over the workers' conduits, then gives it one stop for each worker and joins the
workers, each of which handles what it pops until it gets a stop. The two programs differ in the
number of tasks only. A call of `make`, `on` or `pop` is one step. -/
namespace ConduitRuntime.Programs
open Memory Routing ConduitRuntime.Ring
set_option autoImplicit false

/-- `task_event` by its `job_id`; that of a stop is -1. -/
inductive Job
  | task (id : ℕ)
  | stop
  deriving DecidableEq

/-- The number of tasks and the cells of `memory`. -/
structure ShardConfig where
  tasks : ℕ
  cells : ℕ

/-- The numbers of the two programs; both have two conduits of size 1024. -/
def shardingProgram : ShardConfig := ⟨2000, 4096⟩
def fanInProgram : ShardConfig := ⟨100000, 4096⟩

/-- A handle of `memory`, by its pointer. -/
def handle (ptr : Option Job) : EventPtr Job Unit := ⟨ptr, some .releaseToPool, some ()⟩

/-- Where the main thread is, with the pointers of the handles it has: `task` in the loop, and the
stops, of which `tried` have been given to the switch. -/
inductive ShardMain
  | make (i : ℕ)
  | on (i : ℕ) (task : Option Job)
  | makeStops (stops : List (Option Job))
  | onStops (tried untried : List (Option Job))
  | join (k : ℕ) (stops : List (Option Job))
  | finished

inductive ShardPc
  | pop
  | got (job : Job)
  | finished
  deriving DecidableEq

/-- A `shard_worker`; `processed` lists what the source counts. -/
structure ShardWorker where
  pc : ShardPc
  processed : List ℕ

structure Sharding (n size : ℕ) where
  main : ShardMain
  loadBalancer : Switch ℕ n
  tracks : ℕ → Conduit Job size
  free : ℕ
  workers : ℕ → ShardWorker

inductive ShardAction
  | main
  | worker (j : ℕ)

/-- What became of a call of `on`. -/
inductive ShardNote
  | silent
  | gave (accepted : Bool)
  deriving DecidableEq

variable {n size : ℕ}

/-- `memory.make`: the free cells left, and the pointer. -/
def makeJob (free : ℕ) (job : Job) : ℕ × Option Job :=
  if free = 0 then (0, none) else (free - 1, some job)

/-- The cells that handles give back when they are destroyed. -/
def owned (ptrs : List (Option Job)) : ℕ := ptrs.countP Option.isSome

/-- `load_balancer.on`, with the pointer that is left in the handle. -/
def Sharding.on (s : Sharding n size) (ptr : Option Job) : Sharding n size × Option Job :=
  let (loadBalancer, tracks, rest) := s.loadBalancer.on s.tracks (handle ptr)
  ({ s with loadBalancer := loadBalancer, tracks := tracks }, rest.ptr)

def shardMain (c : ShardConfig) (s : Sharding n size) : Option (Sharding n size × ShardNote) :=
  match s.main with
  | .make i =>
    if i < c.tasks then
      let (free, task) := makeJob s.free (.task i)
      some ({ s with free := free, main := .on i task }, .silent)
    else some ({ s with main := .makeStops [] }, .silent)
  | .on i task =>
    let (t, rest) := s.on task
    some ({ t with free := t.free + owned [rest], main := .make (i + 1) },
      .gave (task.isSome && rest.isNone))
  | .makeStops stops =>
    if stops.length < n then
      let (free, stop) := makeJob s.free .stop
      some ({ s with free := free, main := .makeStops (stops ++ [stop]) }, .silent)
    else some ({ s with main := .onStops [] stops }, .silent)
  | .onStops tried [] => some ({ s with main := .join 0 tried }, .silent)
  | .onStops tried (stop :: untried) =>
    let (t, rest) := s.on stop
    some ({ t with main := .onStops (tried ++ [rest]) untried }, .gave (stop.isSome && rest.isNone))
  | .join k stops =>
    if k < n then
      if (s.workers k).pc = .finished then some ({ s with main := .join (k + 1) stops }, .silent)
      else none
    else some ({ s with free := s.free + owned stops, main := .finished }, .silent)
  | .finished => none

def shardWorker (s : Sharding n size) (j : ℕ) : Option (Sharding n size × ShardNote) :=
  if j < n then
    match (s.workers j).pc with
    | .pop =>
      let (track, ev) := (s.tracks j).pop ()
      match ev.ptr with
      | none => some ({ s with tracks := Function.update s.tracks j track }, .silent)
      | some job =>
        some ({ s with
          tracks := Function.update s.tracks j track
          workers := Function.update s.workers j { s.workers j with pc := .got job } }, .silent)
    | .got (.task i) =>
      some ({ s with
        free := s.free + 1
        workers := Function.update s.workers j ⟨.pop, (s.workers j).processed ++ [i]⟩ }, .silent)
    | .got .stop =>
      some ({ s with
        free := s.free + 1
        workers := Function.update s.workers j { s.workers j with pc := .finished } }, .silent)
    | .finished => none
  else none

def shardStep (c : ShardConfig) (s : Sharding n size) :
    ShardAction → Option (Sharding n size × ShardNote)
  | .main => shardMain c s
  | .worker j => shardWorker s j

/-- Every worker has a conduit of its own, bound to the switch under the worker's number. -/
def shardInit (c : ShardConfig) (hsize : 0 < size) (ring : ℕ → ℕ → Option Job) :
    Sharding n size where
  main := .make 0
  loadBalancer := .numbered n
  tracks j := .fresh hsize (ring j)
  free := c.cells
  workers _ := ⟨.pop, []⟩

/-! ## The switch over the workers' conduits -/

theorem init_bound (c : ShardConfig) (hsize : 0 < size) (ring : ℕ → ℕ → Option Job) :
    Numbered n (shardInit c hsize ring : Sharding n size).loadBalancer.outputs := by
  rw [shardInit, Switch.numbered_eq]
  exact numbered_boundArray n

theorem init_next (c : ShardConfig) (hsize : 0 < size) (ring : ℕ → ℕ → Option Job) :
    (shardInit c hsize ring : Sharding n size).loadBalancer.next = 0 := by
  rw [shardInit, Switch.numbered_eq]

section Switching
variable {s : Sharding n size}

/-- The state after the conduit `j` took a job. -/
def Sharding.gave (s : Sharding n size) (j : ℕ) (job : Job) : Sharding n size :=
  { s with
    loadBalancer := { s.loadBalancer with next := (j + 1) % n }
    tracks := Function.update s.tracks j ((s.tracks j).push (some job)).1 }

theorem gave_contents {j : ℕ} (hroom : HasRoom s.tracks j) (job : Job) :
    ((s.gave j job).tracks j).contents = (s.tracks j).contents ++ [some job] := by
  simp only [Sharding.gave, Function.update_self]
  exact ((s.tracks j).push_of_room (some job) hroom).2

theorem gave_of_ne {i j : ℕ} (h : i ≠ j) (job : Job) : (s.gave j job).tracks i = s.tracks i := by
  simp only [Sharding.gave, Function.update_of_ne h]

theorem on_none (s : Sharding n size) : s.on none = (s, none) := rfl

/-- A job is refused when all conduits are full; else one with room gets it, and that is the one at
the cursor unless it is full. -/
theorem on_some (h : Numbered n s.loadBalancer.outputs) (hn : 0 < n) (job : Job) :
    (∀ j < n, ¬ HasRoom s.tracks j) ∧ s.on (some job) = (s, some job) ∨
    ∃ j < n, HasRoom s.tracks j ∧
      (HasRoom s.tracks (s.loadBalancer.next % n) → j = s.loadBalancer.next % n) ∧
      s.on (some job) = (s.gave j job, none) := by
  rcases Switch.on_numbered h hn (show (handle (some job)).ptr = some job from rfl) with
    ⟨hfull, hon⟩ | ⟨j, hj, hroom, hfirst, hon⟩
  · left
    refine ⟨hfull, ?_⟩
    rw [Sharding.on, hon]
    rfl
  · right
    refine ⟨j, hj, hroom, hfirst, ?_⟩
    rw [Sharding.on, hon]
    rfl

end Switching

/-! ## What a worker does -/

/-- The state after a step of the worker `j`. -/
def Sharding.after (s : Sharding n size) (j : ℕ) (track : Conduit Job size) (worker : ShardWorker)
    (freed : ℕ) : Sharding n size :=
  { s with
    free := s.free + freed
    tracks := Function.update s.tracks j track
    workers := Function.update s.workers j worker }

/-- The conduit and the worker after a step, and the cells it gives back. -/
inductive Worked (track : Conduit Job size) (worker : ShardWorker) :
    Conduit Job size → ShardWorker → ℕ → Prop
  | idle (hpc : worker.pc = .pop) (hempty : track.contents = []) :
      Worked track worker track worker 0
  | null (hpc : worker.pc = .pop) {track' : Conduit Job size}
      (hcons : track.contents = none :: track'.contents) : Worked track worker track' worker 0
  | took (hpc : worker.pc = .pop) {track' : Conduit Job size} {job : Job}
      (hcons : track.contents = some job :: track'.contents) :
      Worked track worker track' { worker with pc := .got job } 0
  | handled {i : ℕ} (hpc : worker.pc = .got (.task i)) :
      Worked track worker track ⟨.pop, worker.processed ++ [i]⟩ 1
  | stopped (hpc : worker.pc = .got .stop) :
      Worked track worker track { worker with pc := .finished } 1

theorem worker_cases {s t : Sharding n size} {j : ℕ} {e : ShardNote}
    (hs : shardWorker s j = some (t, e)) :
    j < n ∧ e = .silent ∧ ∃ track worker freed,
      Worked (s.tracks j) (s.workers j) track worker freed ∧ t = s.after j track worker freed := by
  unfold shardWorker at hs
  split_ifs at hs with hj
  refine ⟨hj, ?_⟩
  split at hs
  · rename_i hpc
    cases hc : (s.tracks j).contents with
    | nil =>
      rw [(s.tracks j).pop_of_empty () hc] at hs
      obtain ⟨rfl, rfl⟩ := Prod.mk.inj (Option.some.inj hs)
      refine ⟨rfl, _, _, _, .idle hpc hc, ?_⟩
      simp [Sharding.after]
    | cons x xs =>
      rcases hpop : (s.tracks j).pop () with ⟨track, ev⟩
      obtain ⟨hev, htrack⟩ := (s.tracks j).pop_of_cons () hc
      rw [hpop] at hs hev htrack
      simp only at hs hev htrack
      rw [hev] at hs
      rw [← htrack] at hc
      cases x with
      | none =>
        obtain ⟨rfl, rfl⟩ := Prod.mk.inj (Option.some.inj hs)
        refine ⟨rfl, _, _, _, .null hpc hc, ?_⟩
        simp [Sharding.after]
      | some job =>
        obtain ⟨rfl, rfl⟩ := Prod.mk.inj (Option.some.inj hs)
        exact ⟨rfl, _, _, _, .took hpc hc, rfl⟩
  · rename_i i hpc
    obtain ⟨rfl, rfl⟩ := Prod.mk.inj (Option.some.inj hs)
    refine ⟨rfl, _, _, _, .handled hpc, ?_⟩
    simp [Sharding.after]
  · rename_i hpc
    obtain ⟨rfl, rfl⟩ := Prod.mk.inj (Option.some.inj hs)
    refine ⟨rfl, _, _, _, .stopped hpc, ?_⟩
    simp [Sharding.after]
  · cases hs

end ConduitRuntime.Programs
