import Mathlib.Algebra.Order.BigOperators.Group.Finset
import ConduitRuntime.Foundations.Budget
import ConduitRuntime.Foundations.Shares
import ConduitRuntime.Programs.Sharding

/-! The sharding program when the conduits have room and the pool has cells for all jobs: nothing is
lost, and each worker processes the tasks whose turn was its own. -/
namespace ConduitRuntime.Programs
open Execution Memory Routing Shares ConduitRuntime.Ring
set_option autoImplicit false

variable {n size : ℕ}

/-! ## Where the jobs are -/

/-- The job of the call number `i` of `on`. -/
def jobAt (tasks i : ℕ) : Job := if i < tasks then .task i else .stop

/-- The calls of `on` made so far. -/
def ShardMain.given (tasks n : ℕ) : ShardMain → ℕ
  | .make i => i
  | .on i _ => i
  | .makeStops _ => tasks
  | .onStops tried _ => tasks + tried.length
  | .join _ _ => tasks + n
  | .finished => tasks + n

def ShardMain.handles : ShardMain → List (Option Job)
  | .make _ => []
  | .on _ task => [task]
  | .makeStops stops => stops
  | .onStops tried untried => tried ++ untried
  | .join _ stops => stops
  | .finished => []

def ShardMain.joined (n : ℕ) : ShardMain → ℕ
  | .join k _ => k
  | .finished => n
  | _ => 0

/-- The handles when every `make` and every `on` has succeeded. -/
def ShardMain.Complete (tasks n : ℕ) : ShardMain → Prop
  | .make i => i ≤ tasks
  | .on i task => i < tasks ∧ task = some (.task i)
  | .makeStops stops => stops.length ≤ n ∧ ∀ ptr ∈ stops, ptr = some .stop
  | .onStops tried untried => tried.length + untried.length = n ∧ (∀ ptr ∈ tried, ptr = none) ∧
      ∀ ptr ∈ untried, ptr = some .stop
  | .join k stops => k ≤ n ∧ ∀ ptr ∈ stops, ptr = none
  | .finished => True

def ShardWorker.hand (w : ShardWorker) : List Job :=
  match w.pc with
  | .got job => [job]
  | _ => []

/-- What a worker has popped. -/
def ShardWorker.taken (w : ShardWorker) : List Job :=
  w.processed.map .task ++ match w.pc with
    | .pop => []
    | .got job => [job]
    | .finished => [.stop]

def Sharding.held (s : Sharding n size) (j : ℕ) : ℕ :=
  (s.tracks j).contents.length + (s.workers j).hand.length

/-- Nothing is lost: each worker has popped, or finds in its conduit, the jobs whose turn was its
own, and every cell is free, with a worker, in a conduit or with the main thread. -/
structure Exact (c : ShardConfig) (s : Sharding n size) : Prop where
  bound : Numbered n s.loadBalancer.outputs
  next : s.loadBalancer.next = s.main.given c.tasks n % n
  complete : s.main.Complete c.tasks n
  flow : ∀ j < n, (s.workers j).taken.map some ++ (s.tracks j).contents =
    (share n j (s.main.given c.tasks n)).map fun i => some (jobAt c.tasks i)
  account : s.free + ∑ j ∈ Finset.range n, s.held j + owned s.main.handles = c.cells
  joined : ∀ i < s.main.joined n, (s.workers i).pc = .finished

theorem init_exact (c : ShardConfig) (hsize : 0 < size) (ring : ℕ → ℕ → Option Job) :
    Exact c (shardInit c hsize ring : Sharding n size) where
  bound := init_bound c hsize ring
  next := by
    rw [init_next]
    exact (Nat.zero_mod n).symm
  complete := Nat.zero_le c.tasks
  flow j _ := by simp [shardInit, ShardWorker.taken, ShardMain.given, share]
  account := by simp [shardInit, Sharding.held, ShardWorker.hand, ShardMain.handles, owned]
  joined i hi := absurd hi (Nat.not_lt_zero i)

namespace Exact
variable {c : ShardConfig} {s t : Sharding n size} {e : ShardNote} {j : ℕ}

theorem held_le (h : Exact c s) (hj : j < n) :
    s.held j ≤ (share n j (s.main.given c.tasks n)).length := by
  have hlen := congrArg List.length (h.flow j hj)
  simp only [List.length_append, List.length_map] at hlen
  have hhand : (s.workers j).hand.length ≤ (s.workers j).taken.length := by
    unfold ShardWorker.hand ShardWorker.taken
    cases (s.workers j).pc <;> simp
  unfold Sharding.held
  omega

theorem sum_held_le (h : Exact c s) (hn : 0 < n) :
    ∑ j ∈ Finset.range n, s.held j ≤ s.main.given c.tasks n := by
  calc ∑ j ∈ Finset.range n, s.held j
      ≤ ∑ j ∈ Finset.range n, (share n j (s.main.given c.tasks n)).length :=
        Finset.sum_le_sum fun j hj => h.held_le (Finset.mem_range.mp hj)
    _ = s.main.given c.tasks n := sum_share_length hn _

theorem free_pos (h : Exact c s) (hn : 0 < n)
    (hcells : s.main.given c.tasks n + s.main.handles.length < c.cells) : s.free ≠ 0 := by
  have hsum := h.sum_held_le hn
  have hacc := h.account
  have howned : owned s.main.handles ≤ s.main.handles.length := List.countP_le_length
  omega

/-- The conduit whose turn it is has room. -/
theorem turn_hasRoom (h : Exact c s) (hn : 0 < n) (hroom : c.tasks + n ≤ n * (size - 1))
    (hgiven : s.main.given c.tasks n < c.tasks + n) :
    HasRoom s.tracks (s.loadBalancer.next % n) := by
  have hheld := h.held_le (Nat.mod_lt (s.main.given c.tasks n) hn)
  rw [share_length_turn hn] at hheld
  have hrounds : s.main.given c.tasks n / n < size - 1 :=
    Nat.div_lt_of_lt_mul (Nat.lt_of_lt_of_le hgiven hroom)
  unfold Sharding.held at hheld
  rw [HasRoom, h.next, Nat.mod_mod]
  omega

/-- A step of the main thread other than a call of `on`. -/
theorem moved (h : Exact c s) {main : ShardMain} {free : ℕ}
    (hgiven : main.given c.tasks n = s.main.given c.tasks n) (hcomplete : main.Complete c.tasks n)
    (haccount : free + owned main.handles = s.free + owned s.main.handles)
    (hjoined : ∀ i < main.joined n, (s.workers i).pc = .finished) :
    Exact c { s with main := main, free := free } where
  bound := h.bound
  next := h.next.trans (by rw [hgiven])
  complete := hcomplete
  flow j hj := (h.flow j hj).trans (by rw [hgiven])
  account := by
    have hacc := h.account
    change free + ∑ j ∈ Finset.range n, s.held j + owned main.handles = c.cells
    omega
  joined := hjoined

/-- A call of `on` with the job whose turn it is. -/
theorem give (h : Exact c s) (hn : 0 < n) (hroom : c.tasks + n ≤ n * (size - 1)) (job : Job)
    (main : ShardMain) (hjob : job = jobAt c.tasks (s.main.given c.tasks n))
    (hgiven : s.main.given c.tasks n < c.tasks + n)
    (hnext : main.given c.tasks n = s.main.given c.tasks n + 1)
    (hcomplete : main.Complete c.tasks n)
    (haccount : owned main.handles + 1 = owned s.main.handles) (hjoined : main.joined n = 0) :
    ∃ j, s.on (some job) = (s.gave j job, none) ∧ Exact c { s.gave j job with main := main } := by
  have hturn := h.turn_hasRoom hn hroom hgiven
  rcases on_some h.bound hn job with ⟨hfull, -⟩ | ⟨j, hj, -, hfirst, hon⟩
  · exact absurd hturn (hfull _ (Nat.mod_lt _ hn))
  have hfirst := hfirst hturn
  rw [← hfirst] at hturn
  have hj' : s.main.given c.tasks n % n = j := by
    rw [hfirst, h.next, Nat.mod_mod]
  refine ⟨j, hon, h.bound, ?_, hcomplete, ?_, ?_, ?_⟩
  · change (j + 1) % n = main.given c.tasks n % n
    rw [hnext, ← hj']
    exact Nat.mod_add_mod _ _ _
  · intro i hi
    change (s.workers i).taken.map some ++ ((s.gave j job).tracks i).contents =
      (share n i (main.given c.tasks n)).map fun i => some (jobAt c.tasks i)
    rw [hnext, share_succ]
    by_cases hij : i = j
    · subst hij
      rw [gave_contents hturn, ← List.append_assoc, h.flow i hi, if_pos hj', List.map_append, hjob]
      rfl
    · rw [gave_of_ne hij, h.flow i hi, if_neg (fun he => hij (he.symm.trans hj')), List.append_nil]
  · have hchange := sum_range_change hj (f := s.held) (g := (s.gave j job).held) (by
      intro i hi
      rw [Sharding.held, gave_of_ne hi]
      rfl)
    have hheld : (s.gave j job).held j = s.held j + 1 := by
      rw [Sharding.held, gave_contents hturn, List.length_append, List.length_singleton,
        Nat.add_right_comm]
      rfl
    have hacc := h.account
    change s.free + ∑ j' ∈ Finset.range n, (s.gave j job).held j' + owned main.handles = c.cells
    omega
  · intro i hi
    change i < main.joined n at hi
    omega

section Main
variable (hn : 0 < n) (hroom : c.tasks + n ≤ n * (size - 1)) (hcells : c.tasks + n ≤ c.cells)

include hn hcells in
theorem make_step (h : Exact c s) {i : ℕ} (hpc : s.main = .make i)
    (hs : shardMain c s = some (t, e)) : Exact c t ∧ e ≠ .gave false := by
  have hcomplete := h.complete
  rw [hpc] at hcomplete
  simp only [shardMain, hpc] at hs
  split_ifs at hs with hi
  · have hfree := h.free_pos hn (by
      rw [hpc]
      simp only [ShardMain.given, ShardMain.handles, List.length_nil]
      omega)
    simp only [makeJob, if_neg hfree] at hs
    obtain ⟨rfl, rfl⟩ := Prod.mk.inj (Option.some.inj hs)
    refine ⟨h.moved ?_ ⟨hi, rfl⟩ ?_ nofun, nofun⟩
    · rw [hpc]; rfl
    · rw [hpc]
      change s.free - 1 + 1 = s.free + 0
      omega
  · obtain ⟨rfl, rfl⟩ := Prod.mk.inj (Option.some.inj hs)
    refine ⟨h.moved ?_ ⟨Nat.zero_le n, nofun⟩ ?_ nofun, nofun⟩
    · rw [hpc]
      exact Nat.le_antisymm (Nat.le_of_not_lt hi) hcomplete
    · rw [hpc]; rfl

include hn hroom in
theorem on_step (h : Exact c s) {i : ℕ} {task : Option Job} (hpc : s.main = .on i task)
    (hs : shardMain c s = some (t, e)) : Exact c t ∧ e ≠ .gave false := by
  have hcomplete := h.complete
  rw [hpc] at hcomplete
  obtain ⟨hi, rfl⟩ := hcomplete
  obtain ⟨j, hon, hexact⟩ := h.give hn hroom (.task i) (.make (i + 1))
    (by rw [hpc]; exact (if_pos hi).symm)
    (by rw [hpc]; exact Nat.lt_add_right n hi) (by rw [hpc]; rfl) hi (by rw [hpc]; rfl) rfl
  simp only [shardMain, hpc, hon] at hs
  obtain ⟨rfl, rfl⟩ := Prod.mk.inj (Option.some.inj hs)
  exact ⟨hexact, nofun⟩

include hn hcells in
theorem makeStops_step (h : Exact c s) {stops : List (Option Job)}
    (hpc : s.main = .makeStops stops) (hs : shardMain c s = some (t, e)) :
    Exact c t ∧ e ≠ .gave false := by
  have hcomplete := h.complete
  rw [hpc] at hcomplete
  obtain ⟨hlen, hstops⟩ := hcomplete
  simp only [shardMain, hpc] at hs
  split_ifs at hs with hlt
  · have hfree := h.free_pos hn (by
      rw [hpc]
      simp only [ShardMain.given, ShardMain.handles]
      omega)
    simp only [makeJob, if_neg hfree] at hs
    obtain ⟨rfl, rfl⟩ := Prod.mk.inj (Option.some.inj hs)
    refine ⟨h.moved ?_ ⟨?_, ?_⟩ ?_ nofun, nofun⟩
    · rw [hpc]; rfl
    · rw [List.length_append]
      exact hlt
    · intro ptr hptr
      rcases List.mem_append.mp hptr with hmem | hmem
      · exact hstops ptr hmem
      · exact List.mem_singleton.mp hmem
    · rw [hpc]
      simp only [ShardMain.handles, owned, List.countP_append, List.countP_singleton,
        Option.isSome_some, if_true]
      omega
  · obtain ⟨rfl, rfl⟩ := Prod.mk.inj (Option.some.inj hs)
    refine ⟨h.moved ?_ ⟨?_, nofun, hstops⟩ ?_ nofun, nofun⟩
    · rw [hpc]; rfl
    · simp only [List.length_nil]
      omega
    · rw [hpc]; rfl

include hn hroom in
theorem onStops_step (h : Exact c s) {tried untried : List (Option Job)}
    (hpc : s.main = .onStops tried untried) (hs : shardMain c s = some (t, e)) :
    Exact c t ∧ e ≠ .gave false := by
  have hcomplete := h.complete
  rw [hpc] at hcomplete
  obtain ⟨hlen, htried, huntried⟩ := hcomplete
  cases untried with
  | nil =>
    simp only [shardMain, hpc] at hs
    obtain ⟨rfl, rfl⟩ := Prod.mk.inj (Option.some.inj hs)
    refine ⟨h.moved ?_ ⟨Nat.zero_le n, htried⟩ ?_ nofun, nofun⟩
    · rw [hpc, ShardMain.given, ShardMain.given, ← hlen]
      rfl
    · rw [hpc]
      simp only [ShardMain.handles, List.append_nil]
  | cons stop untried =>
    rw [List.length_cons] at hlen
    obtain rfl : stop = some .stop := huntried stop List.mem_cons_self
    have hcomplete' : (ShardMain.onStops (tried ++ [none]) untried).Complete c.tasks n := by
      refine ⟨?_, ?_, fun ptr hptr => huntried ptr (List.mem_cons_of_mem _ hptr)⟩
      · rw [List.length_append, List.length_singleton]
        omega
      · intro ptr hptr
        rcases List.mem_append.mp hptr with hmem | hmem
        · exact htried ptr hmem
        · exact List.mem_singleton.mp hmem
    have howned : owned (ShardMain.onStops (tried ++ [none]) untried).handles + 1 =
        owned (ShardMain.onStops tried (some .stop :: untried)).handles := by
      simp only [ShardMain.handles, owned, List.countP_append, List.countP_cons, List.countP_nil,
        Option.isSome_some, Option.isSome_none, if_true]
      simp only [Bool.false_eq_true, if_false]
      omega
    obtain ⟨j, hon, hexact⟩ := h.give hn hroom .stop (.onStops (tried ++ [none]) untried)
      (by rw [hpc, ShardMain.given, jobAt, if_neg (by omega)])
      (by rw [hpc, ShardMain.given]; omega)
      (by rw [hpc, ShardMain.given, ShardMain.given, List.length_append]; rfl)
      hcomplete' (by rw [hpc]; exact howned) rfl
    simp only [shardMain, hpc, hon] at hs
    obtain ⟨rfl, rfl⟩ := Prod.mk.inj (Option.some.inj hs)
    exact ⟨hexact, nofun⟩

theorem join_step (h : Exact c s) {k : ℕ} {stops : List (Option Job)}
    (hpc : s.main = .join k stops) (hs : shardMain c s = some (t, e)) :
    Exact c t ∧ e ≠ .gave false := by
  have hcomplete := h.complete
  have hjoined := h.joined
  rw [hpc] at hcomplete hjoined
  obtain ⟨hk, hstops⟩ := hcomplete
  simp only [shardMain, hpc] at hs
  split_ifs at hs with hlt hdone
  · obtain ⟨rfl, rfl⟩ := Prod.mk.inj (Option.some.inj hs)
    refine ⟨h.moved ?_ ⟨hlt, hstops⟩ ?_ ?_, nofun⟩
    · rw [hpc]; rfl
    · rw [hpc]; rfl
    · intro i hi
      rcases Nat.lt_succ_iff_lt_or_eq.mp hi with hik | rfl
      · exact hjoined i hik
      · exact hdone
  · obtain ⟨rfl, rfl⟩ := Prod.mk.inj (Option.some.inj hs)
    refine ⟨h.moved ?_ trivial ?_ ?_, nofun⟩
    · rw [hpc]; rfl
    · rw [hpc]; rfl
    · intro i hi
      exact hjoined i (Nat.lt_of_lt_of_le hi (Nat.le_of_not_lt hlt))

end Main

theorem none_not_mem (h : Exact c s) (hj : j < n) : none ∉ (s.tracks j).contents := by
  intro hnone
  have hmem := List.mem_append_right ((s.workers j).taken.map some) hnone
  rw [h.flow j hj] at hmem
  obtain ⟨i, -, hi⟩ := List.mem_map.mp hmem
  cases hi

/-- A worker moves jobs from its conduit to itself, and their cells back to the pool. -/
theorem worker_step (h : Exact c s) (hs : shardWorker s j = some (t, e)) :
    Exact c t ∧ e ≠ .gave false := by
  obtain ⟨hj, rfl, track, worker, freed, hw, rfl⟩ := worker_cases hs
  have hnull := h.none_not_mem hj
  have hflow : worker.taken.map some ++ track.contents =
      (s.workers j).taken.map some ++ (s.tracks j).contents := by
    cases hw with
    | idle hpc hempty => rfl
    | null hpc hcons => exact absurd (hcons ▸ List.mem_cons_self) hnull
    | took hpc hcons => simp [ShardWorker.taken, hpc, hcons]
    | handled hpc => simp [ShardWorker.taken, hpc]
    | stopped hpc => simp [ShardWorker.taken, hpc]
  have hheld : freed + (track.contents.length + worker.hand.length) = s.held j := by
    cases hw with
    | idle hpc hempty => exact Nat.zero_add _
    | null hpc hcons => exact absurd (hcons ▸ List.mem_cons_self) hnull
    | took hpc hcons => simp [Sharding.held, ShardWorker.hand, hpc, hcons]
    | handled hpc => simp [Sharding.held, ShardWorker.hand, hpc, Nat.add_comm]
    | stopped hpc => simp [Sharding.held, ShardWorker.hand, hpc, Nat.add_comm]
  have hpc : (s.workers j).pc ≠ .finished := by
    intro hdone
    cases hw <;> simp_all
  refine ⟨⟨h.bound, h.next, h.complete, ?_, ?_, ?_⟩, nofun⟩
  · intro i hi
    by_cases hij : i = j
    · subst hij
      simp only [Sharding.after, Function.update_self]
      exact hflow.trans (h.flow i hi)
    · simp only [Sharding.after, Function.update_of_ne hij]
      exact h.flow i hi
  · have hchange := sum_range_change hj (f := s.held)
      (g := (s.after j track worker freed).held) (by
        intro i hi
        simp only [Sharding.held, Sharding.after, Function.update_of_ne hi])
    have hat : (s.after j track worker freed).held j =
        track.contents.length + worker.hand.length := by
      simp only [Sharding.held, Sharding.after, Function.update_self]
    have hacc := h.account
    change s.free + freed + ∑ i ∈ Finset.range n, (s.after j track worker freed).held i +
      owned s.main.handles = c.cells
    omega
  · intro i hi
    have hdone := h.joined i hi
    have hij : i ≠ j := by
      rintro rfl
      exact hpc hdone
    simp only [Sharding.after, Function.update_of_ne hij]
    exact hdone

theorem step (h : Exact c s) (hn : 0 < n) (hroom : c.tasks + n ≤ n * (size - 1))
    (hcells : c.tasks + n ≤ c.cells) {a : ShardAction} (hs : shardStep c s a = some (t, e)) :
    Exact c t ∧ e ≠ .gave false := by
  cases a with
  | worker j => exact h.worker_step hs
  | main =>
    cases hpc : s.main with
    | make i => exact h.make_step hn hcells hpc hs
    | on i task => exact h.on_step hn hroom hpc hs
    | makeStops stops => exact h.makeStops_step hn hcells hpc hs
    | onStops tried untried => exact h.onStops_step hn hroom hpc hs
    | join k stops => exact h.join_step hpc hs
    | finished =>
      simp only [shardStep, shardMain, hpc] at hs
      cases hs

theorem given_le (h : Exact c s) : s.main.given c.tasks n ≤ c.tasks + n := by
  have hcomplete := h.complete
  cases hpc : s.main with
  | make i =>
    rw [hpc] at hcomplete
    exact Nat.le_add_right_of_le hcomplete
  | on i task =>
    rw [hpc] at hcomplete
    exact Nat.le_add_right_of_le hcomplete.1.le
  | makeStops stops => exact Nat.le_add_right c.tasks n
  | onStops tried untried =>
    rw [hpc] at hcomplete
    have hlen := hcomplete.1
    simp only [ShardMain.given]
    omega
  | join k stops => exact Nat.le_refl _
  | finished => exact Nat.le_refl _

/-- The tasks a worker has processed are the first of its share. -/
theorem processed_eq (h : Exact c s) (hj : j < n) :
    ∃ rest, share n j (s.main.given c.tasks n) = (s.workers j).processed ++ rest ∧
      (∀ i ∈ (s.workers j).processed, i < c.tasks) ∧
      ((s.workers j).taken.drop (s.workers j).processed.length).map some ++ (s.tracks j).contents =
        rest.map fun i => some (jobAt c.tasks i) := by
  have hflow := h.flow j hj
  have htaken : (s.workers j).taken = (s.workers j).processed.map .task ++
      (s.workers j).taken.drop (s.workers j).processed.length := by
    simp [ShardWorker.taken]
  rw [htaken, List.map_append, List.append_assoc] at hflow
  obtain ⟨a, rest, hshare, ha, hrest⟩ := List.map_eq_append_iff.mp hflow.symm
  have hlow : ∀ i ∈ a, i < c.tasks := by
    intro i hi
    have hmem := List.mem_map_of_mem (f := fun i => some (jobAt c.tasks i)) hi
    rw [ha, List.map_map] at hmem
    obtain ⟨m, -, hm⟩ := List.mem_map.mp hmem
    by_contra hnot
    simp [jobAt, hnot] at hm
  have hsame : a = (s.workers j).processed := by
    have htasks : (a.map fun i => some (jobAt c.tasks i)) = a.map (some ∘ Job.task) :=
      List.map_congr_left fun i hi => by simp [jobAt, hlow i hi]
    rw [htasks, List.map_map] at ha
    exact List.map_injective_iff.mpr (fun x y hxy => by simpa using hxy) ha
  subst hsame
  exact ⟨rest, hshare, hlow, hrest.symm⟩

theorem processed_prefix (h : Exact c s) (hj : j < n) :
    (s.workers j).processed <+: share n j c.tasks := by
  obtain ⟨rest, hshare, hlow, -⟩ := h.processed_eq hj
  have hbelow := filter_share_prefix n j (s.main.given c.tasks n) c.tasks
  rw [hshare, List.filter_append, List.filter_eq_self.mpr (by simpa using hlow)] at hbelow
  exact (List.prefix_append _ _).trans hbelow

/-- The stop comes last: a worker that got it has processed its share. -/
theorem finished_eq (h : Exact c s) (hj : j < n) (hdone : (s.workers j).pc = .finished) :
    (s.workers j).processed = share n j c.tasks ∧ (s.tracks j).contents = [] := by
  obtain ⟨rest, hshare, hlow, hrest⟩ := h.processed_eq hj
  have hstop : (s.workers j).taken.drop (s.workers j).processed.length = [.stop] := by
    simp [ShardWorker.taken, hdone]
  rw [hstop] at hrest
  obtain ⟨x, b, rfl, hx, hb⟩ := List.map_eq_cons_iff.mp hrest.symm
  have htasks : c.tasks ≤ x := by
    by_contra hnot
    simp [jobAt, Nat.lt_of_not_le hnot] at hx
  obtain ⟨hshare', rfl⟩ := share_split hshare h.given_le htasks hlow
  exact ⟨hshare', hb.symm⟩

/-- Once all stops are given, a worker that waits finds its stop. -/
theorem stop_waits (h : Exact c s) (hj : j < n) (hgiven : s.main.given c.tasks n = c.tasks + n)
    (hpc : (s.workers j).pc = .pop) : (s.tracks j).contents ≠ [] := by
  intro hempty
  obtain ⟨rest, hshare, hlow, hrest⟩ := h.processed_eq hj
  have hnil : (s.workers j).taken.drop (s.workers j).processed.length = [] := by
    simp [ShardWorker.taken, hpc]
  rw [hnil, hempty] at hrest
  obtain rfl : rest = [] := List.map_eq_nil_iff.mp hrest.symm
  obtain ⟨x, hx, hlt, hxj⟩ := exists_mem_window hj c.tasks
  have hmem : x ∈ share n j (s.main.given c.tasks n) := mem_share.mpr ⟨by omega, hxj⟩
  rw [hshare, List.append_nil] at hmem
  have := hlow x hmem
  omega

theorem all_free (h : Exact c s) (hmain : s.main = .finished) :
    s.free = c.cells ∧ ∀ j < n, (s.workers j).pc = .finished := by
  have hjoined := h.joined
  have hacc := h.account
  rw [hmain] at hjoined hacc
  have hsum : ∑ j ∈ Finset.range n, s.held j = 0 := by
    apply Finset.sum_eq_zero
    intro j hj
    have hj := Finset.mem_range.mp hj
    rw [Sharding.held, (h.finished_eq hj (hjoined j hj)).2, ShardWorker.hand, hjoined j hj]
    rfl
  rw [hsum] at hacc
  exact ⟨hacc, hjoined⟩

/-- Once all stops are given, the main thread leaves the workers and the conduits alone. -/
theorem quiet_step (h : Exact c s) (hn : 0 < n) (hgiven : s.main.given c.tasks n = c.tasks + n)
    (hs : shardMain c s = some (t, e)) :
    t.main.given c.tasks n = c.tasks + n ∧ t.tracks = s.tracks ∧ t.workers = s.workers := by
  have hcomplete := h.complete
  cases hpc : s.main with
  | make i =>
    rw [hpc] at hcomplete hgiven
    simp only [ShardMain.given, ShardMain.Complete] at hcomplete hgiven
    omega
  | on i task =>
    rw [hpc] at hcomplete hgiven
    simp only [ShardMain.given, ShardMain.Complete] at hcomplete hgiven
    omega
  | makeStops stops =>
    rw [hpc] at hgiven
    simp only [ShardMain.given] at hgiven
    omega
  | onStops tried untried =>
    rw [hpc] at hcomplete hgiven
    simp only [ShardMain.given] at hgiven
    obtain ⟨hlen, -⟩ := hcomplete
    obtain rfl : untried = [] := List.eq_nil_of_length_eq_zero (by omega)
    simp only [shardMain, hpc] at hs
    obtain ⟨rfl, rfl⟩ := Prod.mk.inj (Option.some.inj hs)
    exact ⟨rfl, rfl, rfl⟩
  | join k stops =>
    simp only [shardMain, hpc] at hs
    split_ifs at hs
    all_goals
      obtain ⟨rfl, rfl⟩ := Prod.mk.inj (Option.some.inj hs)
      exact ⟨rfl, rfl, rfl⟩
  | finished =>
    simp only [shardMain, hpc] at hs
    cases hs

end Exact

/-! ## Runs -/

section Runs
variable {c : ShardConfig} {s t : Sharding n size} {e : ShardNote} {j : ℕ}

theorem sharding_invariant (hn : 0 < n) (hroom : c.tasks + n ≤ n * (size - 1))
    (hcells : c.tasks + n ≤ c.cells) {hsize : 0 < size} {ring : ℕ → ℕ → Option Job}
    {es : List ShardNote}
    (h : Exec (shardStep c) (fun _ _ => True) (shardInit c hsize ring : Sharding n size) es s) :
    Exact c s ∧ .gave false ∉ es := by
  refine h.invariant (fun es s => Exact c s ∧ .gave false ∉ es)
    ⟨init_exact c hsize ring, by simp⟩ ?_
  rintro es s a t e ⟨hexact, hnone⟩ - hs
  obtain ⟨hexact', hne⟩ := hexact.step hn hroom hcells hs
  refine ⟨hexact', ?_⟩
  intro hmem
  rcases List.mem_append.mp hmem with hold | hnew
  · exact hnone hold
  · exact hne (List.mem_singleton.mp hnew).symm

def ShardAction.isWorker (j : ℕ) : ShardAction → Bool
  | .main => false
  | .worker i => i = j

/-- The steps the worker `j` has still to make. -/
def Sharding.stepsLeft (s : Sharding n size) (j : ℕ) : ℕ :=
  2 * (s.tracks j).contents.length + (s.workers j).hand.length

theorem stepsLeft_step (h : Exact c s) (hn : 0 < n) (hj : j < n)
    (hgiven : s.main.given c.tasks n = c.tasks + n) {a : ShardAction}
    (hs : shardStep c s a = some (t, e)) :
    t.main.given c.tasks n = c.tasks + n ∧
      (a.isWorker j).toNat + t.stepsLeft j ≤ s.stepsLeft j := by
  cases a with
  | main =>
    obtain ⟨hgiven', htracks, hworkers⟩ := h.quiet_step hn hgiven hs
    refine ⟨hgiven', ?_⟩
    rw [Sharding.stepsLeft, htracks, hworkers, ShardAction.isWorker, Bool.toNat_false, Nat.zero_add]
    rfl
  | worker i =>
    obtain ⟨-, rfl, track, worker, freed, hw, rfl⟩ := worker_cases hs
    refine ⟨hgiven, ?_⟩
    by_cases hij : j = i
    · subst hij
      have hleft : 1 + (2 * track.contents.length + worker.hand.length) ≤ s.stepsLeft j := by
        cases hw with
        | idle hpc hempty => exact absurd hempty (h.stop_waits hj hgiven hpc)
        | null hpc hcons => exact absurd (hcons ▸ List.mem_cons_self) (h.none_not_mem hj)
        | took hpc hcons =>
          simp only [Sharding.stepsLeft, ShardWorker.hand, hpc, hcons, List.length_cons,
            List.length_nil]
          omega
        | handled hpc =>
          simp only [Sharding.stepsLeft, ShardWorker.hand, hpc, List.length_cons, List.length_nil]
          omega
        | stopped hpc =>
          simp only [Sharding.stepsLeft, ShardWorker.hand, hpc, List.length_cons, List.length_nil]
          omega
      simpa [Sharding.stepsLeft, Sharding.after, ShardAction.isWorker] using hleft
    · have hother : (decide (i = j)).toNat = 0 := by simp [Ne.symm hij]
      simp only [ShardAction.isWorker, hother, Sharding.stepsLeft, Sharding.after,
        Function.update_of_ne hij]
      omega

theorem unfinished_isSome (hj : j < n) (hpc : (s.workers j).pc ≠ .finished) :
    (shardStep c s (.worker j)).isSome := by
  simp only [shardStep, shardWorker, if_pos hj]
  split
  · split <;> rfl
  · rfl
  · rfl
  · rename_i hdone
    exact absurd hdone hpc

/-- With room in the conduits and cells in the pool for all jobs, as in `03_sharding`: whatever the
schedule, every call of `on` is accepted, each worker processes its share of the tasks in order and
has processed all of it when it ends, and when the main thread ends so have the workers and every
cell is free. At the joins no worker is stuck, and each ends within two steps for each job in its
conduit and one more. -/
theorem sharding_exact (c : ShardConfig) (hn : 0 < n) (hroom : c.tasks + n ≤ n * (size - 1))
    (hcells : c.tasks + n ≤ c.cells) (hsize : 0 < size) (ring : ℕ → ℕ → Option Job)
    (es : List ShardNote) (s : Sharding n size)
    (h : Exec (shardStep c) (fun _ _ => True) (shardInit c hsize ring) es s) :
    .gave false ∉ es ∧
    (∀ j < n, (s.workers j).processed <+: share n j c.tasks) ∧
    (∀ j < n, (s.workers j).pc = .finished →
      (s.workers j).processed = share n j c.tasks ∧ (s.tracks j).contents = []) ∧
    (s.main = .finished → s.free = c.cells ∧ ∀ j < n, (s.workers j).pc = .finished) ∧
    ∀ k stops, s.main = .join k stops → ∀ j < n, ∀ as es' u,
      run (shardStep c) (fun _ _ => True) s as = some (es', u) →
        as.countP (ShardAction.isWorker j) ≤ 2 * (s.tracks j).contents.length + 1 ∧
        ((u.workers j).pc ≠ .finished → (shardStep c u (.worker j)).isSome) := by
  obtain ⟨hexact, hnone⟩ := sharding_invariant hn hroom hcells h
  refine ⟨hnone, fun j hj => hexact.processed_prefix hj, fun j hj => hexact.finished_eq hj,
    hexact.all_free, ?_⟩
  intro k stops hmain j hj as es' u hrun
  have hgiven : s.main.given c.tasks n = c.tasks + n := by
    rw [hmain]
    rfl
  obtain ⟨-, hcount, -⟩ := run_within_budget
    (fun s : Sharding n size => Exact c s ∧ s.main.given c.tasks n = c.tasks + n)
    (ShardAction.isWorker j) (fun s => s.stepsLeft j)
    (fun _ => (none : Option Unit)) (fun _ => 0)
    (by
      rintro s a t e ⟨hi, hg⟩ (_ : True) hs
      obtain ⟨hg', hleft⟩ := stepsLeft_step hi hn hj hg hs
      exact ⟨⟨(hi.step hn hroom hcells hs).1, hg'⟩, hleft, Nat.le_refl 0⟩)
    ⟨hexact, hgiven⟩ (fun _ _ => trivial) hrun
  have hhand : (s.workers j).hand.length ≤ 1 := by
    unfold ShardWorker.hand
    cases (s.workers j).pc <;> simp
  refine ⟨?_, unfinished_isSome hj⟩
  unfold Sharding.stepsLeft at hcount
  omega

/-- Three tasks for two workers, to the end. -/
theorem sharding_exact_three_tasks :
    ∃ (es : List ShardNote) (s : Sharding 2 4),
      Exec (shardStep ⟨3, 5⟩) (fun _ _ => True)
        (shardInit ⟨3, 5⟩ (by decide) fun _ _ => none) es s ∧
      s.main = .finished ∧ s.free = 5 ∧ (s.workers 0).processed = [0, 2] ∧
      (s.workers 1).processed = [1] := by
  have h := exec_of_run (show run (shardStep ⟨3, 5⟩) (fun _ _ => True)
    (shardInit ⟨3, 5⟩ (by decide) fun _ _ => none : Sharding 2 4)
    [.main, .main, .worker 0, .worker 0, .main, .main, .main, .main, .main, .main, .main, .main,
      .worker 1, .worker 1, .main, .main, .worker 0, .worker 0, .main, .worker 0, .worker 0,
      .worker 1, .worker 1, .main, .main, .main] = some (_, _) from rfl)
  obtain ⟨-, -, hdone, hfree, -⟩ := sharding_exact ⟨3, 5⟩ (by decide) (by decide) (by decide)
    (by decide) (fun _ _ => none) _ _ h
  exact ⟨_, _, h, rfl, (hfree rfl).1, (hdone 0 (by decide) rfl).1, (hdone 1 (by decide) rfl).1⟩

end Runs
end ConduitRuntime.Programs
