import ConduitRuntime.Programs.ShardingExact

/-! When the sharding programs end. With room and cells for all jobs the program can always still
end. Without, the main thread may run ahead of the workers, lose a stop and wait for ever for the
worker that does not get one: so it is with the 100 000 tasks of `02_fan_in_polling`. -/
namespace ConduitRuntime.Programs
open Execution Memory Routing Shares ConduitRuntime.Ring
set_option autoImplicit false

variable {n size : ℕ} {c : ShardConfig} {s t : Sharding n size} {e : ShardNote}

/-! ## The steps of the main thread -/

/-- A bound for the steps the main thread has still to make. -/
def ShardMain.left (tasks n : ℕ) : ShardMain → ℕ
  | .make i => 2 * (tasks - i) + 3 * n + 5
  | .on i _ => 2 * (tasks - i) + 3 * n + 4
  | .makeStops stops => n - stops.length + 2 * n + 3
  | .onStops _ untried => untried.length + n + 2
  | .join k _ => n - k + 1
  | .finished => 0

def ShardMain.InRange (tasks n : ℕ) : ShardMain → Prop
  | .on i _ => i < tasks
  | .makeStops stops => stops.length ≤ n
  | _ => True

theorem left_lt (h : s.main.InRange c.tasks n) (hs : shardMain c s = some (t, e)) :
    t.main.left c.tasks n < s.main.left c.tasks n := by
  unfold shardMain at hs
  split at hs
  · rename_i i hpc
    rw [hpc]
    split_ifs at hs with hi
    all_goals
      obtain ⟨rfl, rfl⟩ := Prod.mk.inj (Option.some.inj hs)
      simp only [ShardMain.left, List.length_nil]
      omega
  · rename_i i task hpc
    rw [hpc] at h ⊢
    obtain ⟨rfl, rfl⟩ := Prod.mk.inj (Option.some.inj hs)
    simp only [ShardMain.left, ShardMain.InRange] at h ⊢
    omega
  · rename_i stops hpc
    rw [hpc] at h ⊢
    simp only [ShardMain.InRange] at h
    split_ifs at hs with hlt
    all_goals
      obtain ⟨rfl, rfl⟩ := Prod.mk.inj (Option.some.inj hs)
      simp only [ShardMain.left, List.length_append, List.length_singleton]
      omega
  · rename_i tried hpc
    rw [hpc]
    obtain ⟨rfl, rfl⟩ := Prod.mk.inj (Option.some.inj hs)
    simp only [ShardMain.left, List.length_nil]
    omega
  · rename_i tried stop untried hpc
    rw [hpc]
    obtain ⟨rfl, rfl⟩ := Prod.mk.inj (Option.some.inj hs)
    simp only [ShardMain.left, List.length_cons]
    omega
  · rename_i k stops hpc
    rw [hpc]
    split_ifs at hs with hlt hdone
    all_goals
      obtain ⟨rfl, rfl⟩ := Prod.mk.inj (Option.some.inj hs)
      simp only [ShardMain.left]
      omega
  · cases hs

/-- Only a join of a worker that has not ended keeps the main thread. -/
theorem main_waits (h : shardMain c s = none) :
    s.main = .finished ∨
      ∃ k stops, s.main = .join k stops ∧ k < n ∧ (s.workers k).pc ≠ .finished := by
  unfold shardMain at h
  split at h
  · split_ifs at h
  · cases h
  · split_ifs at h
  · cases h
  · cases h
  · rename_i k stops hpc
    split_ifs at h with hk hdone
    exact .inr ⟨k, stops, hpc, hk, hdone⟩
  · rename_i hpc
    exact .inl hpc

/-! ## The program can end -/

/-- A main step is worth more than the work it can give to the workers. -/
def Sharding.weight (c : ShardConfig) (s : Sharding n size) : ℕ :=
  3 * s.main.left c.tasks n + ∑ j ∈ Finset.range n, s.stepsLeft j

theorem gave_stepsLeft {j : ℕ} (hj : j < n) (hroom : HasRoom s.tracks j) (job : Job) :
    ∑ i ∈ Finset.range n, (s.gave j job).stepsLeft i =
      ∑ i ∈ Finset.range n, s.stepsLeft i + 2 := by
  have hchange := sum_range_change hj (f := s.stepsLeft) (g := (s.gave j job).stepsLeft) (by
    intro i hi
    rw [Sharding.stepsLeft, gave_of_ne hi]
    rfl)
  have hat : (s.gave j job).stepsLeft j = s.stepsLeft j + 2 := by
    rw [Sharding.stepsLeft, gave_contents hroom, List.length_append, List.length_singleton,
      Nat.mul_add, Nat.mul_one, Nat.add_right_comm]
    rfl
  omega

theorem on_stepsLeft (h : Numbered n s.loadBalancer.outputs) (hn : 0 < n) (ptr : Option Job) :
    ∑ j ∈ Finset.range n, (s.on ptr).1.stepsLeft j ≤ ∑ j ∈ Finset.range n, s.stepsLeft j + 2 := by
  cases ptr with
  | none =>
    rw [on_none]
    exact Nat.le_add_right _ 2
  | some job =>
    rcases on_some h hn job with ⟨-, hon⟩ | ⟨j, hj, hroom, -, hon⟩
    · rw [hon]
      exact Nat.le_add_right _ 2
    · rw [hon]
      exact (gave_stepsLeft hj hroom job).le

theorem main_stepsLeft (h : Numbered n s.loadBalancer.outputs) (hn : 0 < n)
    (hs : shardMain c s = some (t, e)) :
    ∑ j ∈ Finset.range n, t.stepsLeft j ≤ ∑ j ∈ Finset.range n, s.stepsLeft j + 2 := by
  unfold shardMain at hs
  split at hs
  · split_ifs at hs
    all_goals
      obtain ⟨rfl, rfl⟩ := Prod.mk.inj (Option.some.inj hs)
      exact Nat.le_add_right _ 2
  · obtain ⟨rfl, rfl⟩ := Prod.mk.inj (Option.some.inj hs)
    exact on_stepsLeft h hn _
  · split_ifs at hs
    all_goals
      obtain ⟨rfl, rfl⟩ := Prod.mk.inj (Option.some.inj hs)
      exact Nat.le_add_right _ 2
  · obtain ⟨rfl, rfl⟩ := Prod.mk.inj (Option.some.inj hs)
    exact Nat.le_add_right _ 2
  · obtain ⟨rfl, rfl⟩ := Prod.mk.inj (Option.some.inj hs)
    exact on_stepsLeft h hn _
  · split_ifs at hs
    all_goals
      obtain ⟨rfl, rfl⟩ := Prod.mk.inj (Option.some.inj hs)
      exact Nat.le_add_right _ 2
  · cases hs

theorem Exact.inRange (h : Exact c s) : s.main.InRange c.tasks n := by
  have hcomplete := h.complete
  cases hpc : s.main with
  | on i task =>
    rw [hpc] at hcomplete
    exact hcomplete.1
  | makeStops stops =>
    rw [hpc] at hcomplete
    exact hcomplete.1
  | _ => trivial

/-- Until the main thread has ended some step brings the end nearer. -/
theorem Exact.advance (h : Exact c s) (hn : 0 < n) (hmain : s.main ≠ .finished) :
    ∃ a t e, shardStep c s a = some (t, e) ∧ t.weight c < s.weight c := by
  cases hs : shardMain c s with
  | some r =>
    obtain ⟨t, e⟩ := r
    refine ⟨.main, t, e, hs, ?_⟩
    have hleft := left_lt h.inRange hs
    have hwork := main_stepsLeft h.bound hn hs
    unfold Sharding.weight
    omega
  | none =>
    rcases main_waits hs with hdone | ⟨k, stops, hpc, hk, hrunning⟩
    · exact absurd hdone hmain
    · have hgiven : s.main.given c.tasks n = c.tasks + n := by
        rw [hpc]
        rfl
      obtain ⟨⟨t, e⟩, ht⟩ := Option.isSome_iff_exists.mp (unfinished_isSome (c := c) hk hrunning)
      refine ⟨.worker k, t, e, ht, ?_⟩
      have hsum : ∑ j ∈ Finset.range n, t.stepsLeft j < ∑ j ∈ Finset.range n, s.stepsLeft j := by
        apply Finset.sum_lt_sum
        · intro j hj
          have hleft := (stepsLeft_step h hn (Finset.mem_range.mp hj) hgiven ht).2
          exact Nat.le_of_add_left_le hleft
        · refine ⟨k, Finset.mem_range.mpr hk, ?_⟩
          have hleft := (stepsLeft_step h hn hk hgiven ht).2
          simp only [ShardAction.isWorker, decide_true, Bool.toNat_true] at hleft
          omega
      have hsame : t.main = s.main := by
        obtain ⟨-, -, track, worker, freed, -, rfl⟩ := worker_cases ht
        rfl
      unfold Sharding.weight
      rw [hsame]
      omega

theorem Exact.can_end (h : Exact c s) (hn : 0 < n) (hroom : c.tasks + n ≤ n * (size - 1))
    (hcells : c.tasks + n ≤ c.cells) :
    ∃ es u, Exec (shardStep c) (fun _ _ => True) s es u ∧ u.main = .finished := by
  induction hw : s.weight c using Nat.strong_induction_on generalizing s with
  | _ w ih =>
    by_cases hmain : s.main = .finished
    · exact ⟨[], s, .nil, hmain⟩
    · obtain ⟨a, t, e, hs, hlt⟩ := h.advance hn hmain
      obtain ⟨es, u, hrun, hu⟩ := ih (t.weight c) (hw ▸ hlt) (h.step hn hroom hcells hs).1 rfl
      have hfirst : Exec (shardStep c) (fun _ _ => True) s ([] ++ [e]) t := Exec.nil.snoc trivial hs
      exact ⟨_, u, hfirst.trans hrun, hu⟩

/-! ## The main thread alone -/

def Sharding.filled (s : Sharding n size) : ℕ :=
  ∑ j ∈ Finset.range n, (s.tracks j).contents.length

/-- The stops in the conduits. -/
def Sharding.stopsIn (s : Sharding n size) : ℕ :=
  ∑ j ∈ Finset.range n, (s.tracks j).contents.count (some .stop)

def AllFull (s : Sharding n size) : Prop := ∀ j < n, ¬ HasRoom s.tracks j

theorem filled_le (s : Sharding n size) : s.filled ≤ n * (size - 1) := by
  have hle : ∀ j ∈ Finset.range n, (s.tracks j).contents.length ≤ size - 1 := by
    intro j _
    have hlt := (s.tracks j).count_lt
    rw [Conduit.contents_length]
    omega
  calc s.filled ≤ ∑ _j ∈ Finset.range n, (size - 1) := Finset.sum_le_sum hle
    _ = n * (size - 1) := by rw [Finset.sum_const_nat (fun _ _ => rfl), Finset.card_range]

/-- A job is refused by full conduits, or is one more in them. -/
theorem on_fills (h : Numbered n s.loadBalancer.outputs) (hn : 0 < n) (job : Job) :
    AllFull s ∧ s.on (some job) = (s, some job) ∨
    ¬ AllFull s ∧ ∃ t, s.on (some job) = (t, none) ∧ Numbered n t.loadBalancer.outputs ∧
      t.main = s.main ∧ t.free = s.free ∧ t.workers = s.workers ∧ t.filled = s.filled + 1 ∧
      t.stopsIn = s.stopsIn + if job = .stop then 1 else 0 := by
  rcases on_some h hn job with hfull | ⟨j, hj, hroom, -, hon⟩
  · exact .inl hfull
  · right
    refine ⟨fun hall => hall j hj hroom, _, hon, h, rfl, rfl, rfl, ?_, ?_⟩
    · have hchange := sum_range_change hj (f := fun i => (s.tracks i).contents.length)
        (g := fun i => ((s.gave j job).tracks i).contents.length) (by
          intro i hi
          simp only [gave_of_ne hi])
      simp only [gave_contents hroom, List.length_append, List.length_singleton] at hchange
      unfold Sharding.filled
      omega
    · have hchange := sum_range_change hj (f := fun i => (s.tracks i).contents.count (some .stop))
        (g := fun i => ((s.gave j job).tracks i).contents.count (some .stop)) (by
          intro i hi
          simp only [gave_of_ne hi])
      have hone : [some job].count (some .stop) = if job = .stop then 1 else 0 := by
        rw [List.count_singleton]
        simp
      simp only [gave_contents hroom, List.count_append, hone] at hchange
      unfold Sharding.stopsIn
      omega

theorem owned_lt {ptrs : List (Option Job)} (h : none ∈ ptrs) : owned ptrs < ptrs.length := by
  apply lt_of_le_of_ne List.countP_le_length
  intro heq
  have := List.countP_eq_length.mp heq none h
  cases this

/-- As long as nothing is popped, what is lost is lost because all conduits are full or all cells
used, and then everything that follows is lost too. -/
def Crowded (c : ShardConfig) (s : Sharding n size) : Prop :=
  match s.main with
  | .make i => i ≤ c.tasks ∧ s.stopsIn = 0 ∧ (s.filled = i ∨ AllFull s ∨ s.free = 0)
  | .on i task => i < c.tasks ∧ task ≠ some .stop ∧ s.stopsIn = 0 ∧
      (s.filled + owned [task] = i + 1 ∨ AllFull s ∨ s.free = 0)
  | .makeStops stops => stops.length ≤ n ∧ s.stopsIn = 0 ∧
      (s.filled + owned stops = c.tasks + stops.length ∨ AllFull s ∨
        s.free = 0 ∧ (stops = [] ∨ none ∈ stops))
  | .onStops tried untried => tried.length + untried.length = n ∧
      (s.filled + owned untried = c.tasks + n ∧ s.stopsIn ≤ tried.length ∨
        AllFull s ∧ untried ≠ [] ∧ s.stopsIn ≤ tried.length ∨ s.stopsIn + owned untried < n)
  | .join k _ => k = 0 ∧ s.stopsIn < n
  | .finished => False

structure Alone (c : ShardConfig) (s : Sharding n size) : Prop where
  bound : Numbered n s.loadBalancer.outputs
  idle : ∀ j, s.workers j = ⟨.pop, []⟩
  account : s.free + s.filled + owned s.main.handles = c.cells
  crowded : Crowded c s

theorem init_alone (c : ShardConfig) (hsize : 0 < size) (ring : ℕ → ℕ → Option Job) :
    Alone c (shardInit c hsize ring : Sharding n size) where
  bound := init_bound c hsize ring
  idle _ := rfl
  account := by simp [shardInit, Sharding.filled, ShardMain.handles, owned]
  crowded := by
    refine ⟨Nat.zero_le _, ?_, .inl ?_⟩
    · simp [shardInit, Sharding.stopsIn]
    · simp [shardInit, Sharding.filled]

namespace Alone

/-- A step of the main thread other than a call of `on`. -/
theorem moved (h : Alone c s) {main : ShardMain} {free : ℕ}
    (haccount : free + owned main.handles = s.free + owned s.main.handles)
    (hcrowded : Crowded c { s with main := main, free := free }) :
    Alone c { s with main := main, free := free } := by
  refine ⟨h.bound, h.idle, ?_, hcrowded⟩
  have hacc := h.account
  change free + s.filled + owned main.handles = c.cells
  omega

theorem make_step (h : Alone c s) {i : ℕ} (hpc : s.main = .make i) :
    ∃ t e, shardMain c s = some (t, e) ∧ Alone c t := by
  have hcrowd := h.crowded
  simp only [Crowded, hpc] at hcrowd
  obtain ⟨hle, hstops, hcases⟩ := hcrowd
  simp only [shardMain, hpc]
  by_cases hi : i < c.tasks
  · rw [if_pos hi]
    by_cases hfree : s.free = 0
    · simp only [makeJob, if_pos hfree]
      refine ⟨_, _, rfl, h.moved ?_ ⟨hi, by rintro ⟨⟩, hstops, .inr (.inr rfl)⟩⟩
      rw [hfree, hpc]
      rfl
    · simp only [makeJob, if_neg hfree]
      refine ⟨_, _, rfl, h.moved ?_ ⟨hi, by rintro ⟨⟩, hstops, ?_⟩⟩
      · rw [hpc]
        change s.free - 1 + 1 = s.free + 0
        omega
      · rcases hcases with hall | hfull | hnone
        · exact .inl (congrArg (· + 1) hall)
        · exact .inr (.inl hfull)
        · exact absurd hnone hfree
  · rw [if_neg hi]
    refine ⟨_, _, rfl, h.moved ?_ ⟨Nat.zero_le n, hstops, ?_⟩⟩
    · rw [hpc]
      rfl
    · obtain rfl : i = c.tasks := Nat.le_antisymm hle (Nat.le_of_not_lt hi)
      rcases hcases with hall | hfull | hnone
      · exact .inl hall
      · exact .inr (.inl hfull)
      · exact .inr (.inr ⟨hnone, .inl rfl⟩)

theorem on_step (h : Alone c s) (hn : 0 < n) {i : ℕ} {task : Option Job}
    (hpc : s.main = .on i task) : ∃ t e, shardMain c s = some (t, e) ∧ Alone c t := by
  have hcrowd := h.crowded
  have hacc := h.account
  simp only [Crowded, hpc] at hcrowd
  rw [hpc] at hacc
  obtain ⟨hi, htask, hstops, hcases⟩ := hcrowd
  cases task with
  | none =>
    simp only [shardMain, hpc, on_none]
    exact ⟨_, _, rfl, h.moved (by rw [hpc]; rfl) ⟨hi, hstops, hcases⟩⟩
  | some job =>
    rcases on_fills h.bound hn job with
      ⟨hfull, hon⟩ | ⟨hroom, t, hon, hbound, -, hfree, hworkers, hfilled, hstopsIn⟩
    · simp only [shardMain, hpc, hon]
      exact ⟨_, _, rfl, h.moved (by rw [hpc]; rfl) ⟨hi, hstops, .inr (.inl hfull)⟩⟩
    · simp only [shardMain, hpc, hon]
      have hjob : job ≠ .stop := fun he => htask (congrArg some he)
      rw [if_neg hjob, hstops] at hstopsIn
      refine ⟨_, _, rfl, hbound, fun j => (congrFun hworkers j).trans (h.idle j), ?_, hi, hstopsIn,
        ?_⟩
      · change t.free + 0 + t.filled + 0 = c.cells
        change s.free + s.filled + 1 = c.cells at hacc
        omega
      · rcases hcases with hall | hfull | hnone
        · exact .inl (hfilled.trans hall)
        · exact absurd hfull hroom
        · exact .inr (.inr (hfree.trans hnone))

theorem makeStops_step (h : Alone c s) (hn : 0 < n) {stops : List (Option Job)}
    (hpc : s.main = .makeStops stops) : ∃ t e, shardMain c s = some (t, e) ∧ Alone c t := by
  have hcrowd := h.crowded
  simp only [Crowded, hpc] at hcrowd
  obtain ⟨hlen, hstops, hcases⟩ := hcrowd
  simp only [shardMain, hpc]
  by_cases hlt : stops.length < n
  · rw [if_pos hlt]
    have hlen' : ∀ ptr, (stops ++ [ptr]).length ≤ n := by
      intro ptr
      rw [List.length_append]
      exact hlt
    by_cases hfree : s.free = 0
    · simp only [makeJob, if_pos hfree]
      refine ⟨_, _, rfl, h.moved ?_ ⟨hlen' none, hstops, .inr (.inr ⟨rfl, .inr (by simp)⟩)⟩⟩
      rw [hfree, hpc]
      simp [ShardMain.handles, owned]
    · simp only [makeJob, if_neg hfree]
      have howned : owned (stops ++ [some .stop]) = owned stops + 1 := by
        simp [owned]
      refine ⟨_, _, rfl, h.moved ?_ ⟨hlen' _, hstops, ?_⟩⟩
      · rw [hpc]
        simp only [ShardMain.handles, howned]
        omega
      · rcases hcases with hall | hfull | ⟨hnone, -⟩
        · left
          rw [howned, List.length_append]
          exact congrArg (· + 1) hall
        · exact .inr (.inl hfull)
        · exact absurd hnone hfree
  · rw [if_neg hlt]
    have hlen' : stops.length = n := Nat.le_antisymm hlen (Nat.le_of_not_lt hlt)
    have hne : stops ≠ [] := by
      rintro rfl
      exact hlt hn
    refine ⟨_, _, rfl, h.moved (by rw [hpc]; rfl) ⟨by simpa using hlen', ?_⟩⟩
    rcases hcases with hall | hfull | ⟨-, hnone⟩
    · exact .inl ⟨hall.trans (congrArg (c.tasks + ·) hlen'), hstops.le⟩
    · exact .inr (.inl ⟨hfull, hne, hstops.le⟩)
    · have hnull := owned_lt (hnone.resolve_left hne)
      refine .inr (.inr ?_)
      change s.stopsIn + owned stops < n
      omega

/-- A stop that is not given is missing from then on. -/
theorem lose (h : Alone c s) {tried untried : List (Option Job)} {stop rest : Option Job}
    (hpc : s.main = .onStops tried (stop :: untried)) (hrest : owned [rest] = owned [stop]) :
    Alone c { s with main := .onStops (tried ++ [rest]) untried } := by
  have hcrowd := h.crowded
  simp only [Crowded, hpc] at hcrowd
  obtain ⟨hlen, hcases⟩ := hcrowd
  have hcons : owned (stop :: untried) = owned [stop] + owned untried := by
    simp only [owned, List.countP_cons, List.countP_nil]
    omega
  have hle : owned untried ≤ untried.length := List.countP_le_length
  refine h.moved ?_ ⟨?_, .inr (.inr ?_)⟩
  · rw [hpc]
    simp only [ShardMain.handles, owned, List.countP_append] at hrest hcons ⊢
    omega
  · rw [List.length_append, List.length_singleton]
    rw [List.length_cons] at hlen
    omega
  · change s.stopsIn + owned untried < n
    rw [List.length_cons] at hlen
    rcases hcases with ⟨-, hstops⟩ | ⟨-, -, hstops⟩ | hfew
    · omega
    · omega
    · omega

theorem onStops_step (h : Alone c s) (hn : 0 < n)
    (hlost : n * (size - 1) < c.tasks + n ∨ c.cells < c.tasks + n)
    {tried untried : List (Option Job)} (hpc : s.main = .onStops tried untried) :
    ∃ t e, shardMain c s = some (t, e) ∧ Alone c t := by
  have hcrowd := h.crowded
  have hacc := h.account
  simp only [Crowded, hpc] at hcrowd
  rw [hpc] at hacc
  obtain ⟨hlen, hcases⟩ := hcrowd
  cases untried with
  | nil =>
    simp only [shardMain, hpc]
    refine ⟨_, _, rfl, h.moved ?_ ⟨rfl, ?_⟩⟩
    · rw [hpc]
      simp only [ShardMain.handles, List.append_nil]
    · rcases hcases with ⟨hall, -⟩ | ⟨-, hne, -⟩ | hfew
      · have hroom := filled_le s
        have hzero : owned ([] : List (Option Job)) = 0 := rfl
        rw [hzero] at hall
        omega
      · exact absurd rfl hne
      · exact hfew
  | cons stop untried =>
    cases stop with
    | none =>
      simp only [shardMain, hpc, on_none]
      exact ⟨_, _, rfl, h.lose hpc rfl⟩
    | some job =>
      rcases on_fills h.bound hn job with
        ⟨-, hon⟩ | ⟨hroom, t, hon, hbound, -, hfree, hworkers, hfilled, hstopsIn⟩
      · simp only [shardMain, hpc, hon]
        exact ⟨_, _, rfl, h.lose hpc rfl⟩
      · simp only [shardMain, hpc, hon]
        have hone : s.stopsIn ≤ t.stopsIn ∧ t.stopsIn ≤ s.stopsIn + 1 := by
          rw [hstopsIn]
          split_ifs <;> omega
        have hcons : owned (some job :: untried) = owned untried + 1 := by
          simp [owned]
        rw [List.length_cons] at hlen
        refine ⟨_, _, rfl, hbound, fun j => (congrFun hworkers j).trans (h.idle j), ?_, ?_, ?_⟩
        · change t.free + t.filled + owned (tried ++ [none] ++ untried) = c.cells
          simp only [ShardMain.handles, owned, List.countP_append, List.countP_cons,
            List.countP_nil, Option.isSome_some, Option.isSome_none, if_true] at hacc ⊢
          simp only [Bool.false_eq_true, if_false]
          omega
        · rw [List.length_append, List.length_singleton]
          omega
        · rw [hcons] at hcases
          change t.filled + owned untried = c.tasks + n ∧ t.stopsIn ≤ (tried ++ [none]).length ∨
            AllFull t ∧ untried ≠ [] ∧ t.stopsIn ≤ (tried ++ [none]).length ∨
            t.stopsIn + owned untried < n
          rw [List.length_append, List.length_singleton]
          rcases hcases with ⟨hall, hstops⟩ | ⟨hfull, -⟩ | hfew
          · exact .inl ⟨by omega, by omega⟩
          · exact absurd hfull hroom
          · exact .inr (.inr (by omega))

theorem inRange (h : Alone c s) : s.main.InRange c.tasks n := by
  have hcrowd := h.crowded
  cases hpc : s.main with
  | on i task =>
    simp only [Crowded, hpc] at hcrowd
    exact hcrowd.1
  | makeStops stops =>
    simp only [Crowded, hpc] at hcrowd
    exact hcrowd.1
  | _ => trivial

/-- The main thread alone comes to its joins with a stop missing. -/
theorem reaches_join (h : Alone c s) (hn : 0 < n)
    (hlost : n * (size - 1) < c.tasks + n ∨ c.cells < c.tasks + n) :
    ∃ es t, Exec (shardStep c) (fun _ _ => True) s es t ∧ Alone c t ∧
      ∃ stops, t.main = .join 0 stops := by
  induction hw : s.main.left c.tasks n using Nat.strong_induction_on generalizing s with
  | _ w ih =>
    have hgo : (∃ t e, shardMain c s = some (t, e) ∧ Alone c t) ∨
        ∃ stops, s.main = .join 0 stops := by
      cases hpc : s.main with
      | make i => exact .inl (h.make_step hpc)
      | on i task => exact .inl (h.on_step hn hpc)
      | makeStops stops => exact .inl (h.makeStops_step hn hpc)
      | onStops tried untried => exact .inl (h.onStops_step hn hlost hpc)
      | join k stops =>
        have hcrowd := h.crowded
        simp only [Crowded, hpc] at hcrowd
        exact .inr ⟨stops, by rw [hcrowd.1]⟩
      | finished =>
        have hcrowd := h.crowded
        simp only [Crowded, hpc] at hcrowd
    rcases hgo with ⟨t, e, hs, ht⟩ | hjoin
    · obtain ⟨es, u, hrun, hu⟩ := ih (t.main.left c.tasks n) (hw ▸ left_lt h.inRange hs) ht rfl
      have hmain : shardStep c s .main = some (t, e) := hs
      have hfirst : Exec (shardStep c) (fun _ _ => True) s ([] ++ [e]) t :=
        Exec.nil.snoc trivial hmain
      exact ⟨_, u, hfirst.trans hrun, hu⟩
    · exact ⟨[], s, .nil, h, hjoin⟩

end Alone

/-! ## The main thread waits for ever -/

/-- The worker has its stop. -/
def ShardWorker.stopped (w : ShardWorker) : ℕ :=
  match w.pc with
  | .finished => 1
  | .got .stop => 1
  | _ => 0

def Sharding.stopsAt (s : Sharding n size) (j : ℕ) : ℕ :=
  (s.tracks j).contents.count (some .stop) + (s.workers j).stopped

/-- The main thread is at its joins, and there are fewer stops than workers. -/
structure Hung (s : Sharding n size) : Prop where
  joining : ∃ k stops, s.main = .join k stops ∧ ∀ i < k, (s.workers i).pc = .finished
  few : ∑ j ∈ Finset.range n, s.stopsAt j < n

theorem Alone.hung (h : Alone c s) {stops : List (Option Job)} (hpc : s.main = .join 0 stops) :
    Hung s := by
  have hcrowd := h.crowded
  simp only [Crowded, hpc] at hcrowd
  refine ⟨⟨0, stops, hpc, fun i hi => absurd hi (Nat.not_lt_zero i)⟩, ?_⟩
  have hsame : ∑ j ∈ Finset.range n, s.stopsAt j = s.stopsIn := by
    apply Finset.sum_congr rfl
    intro j _
    rw [Sharding.stopsAt, h.idle j]
    rfl
  rw [hsame]
  exact hcrowd.2

theorem worked_stopsAt {j : ℕ} {track : Conduit Job size} {worker : ShardWorker} {freed : ℕ}
    (hw : Worked (s.tracks j) (s.workers j) track worker freed) :
    track.contents.count (some .stop) + worker.stopped ≤ s.stopsAt j := by
  cases hw with
  | idle hpc hempty => exact Nat.le_refl _
  | null hpc hcons => simp [Sharding.stopsAt, hcons]
  | @took hpc _ job hcons =>
    cases job <;> simp [Sharding.stopsAt, ShardWorker.stopped, hcons, hpc]
  | handled hpc => simp [Sharding.stopsAt, ShardWorker.stopped, hpc]
  | stopped hpc => simp [Sharding.stopsAt, ShardWorker.stopped, hpc]

theorem Hung.step (h : Hung s) {a : ShardAction} (hs : shardStep c s a = some (t, e)) : Hung t := by
  obtain ⟨k, stops, hpc, hdone⟩ := h.joining
  cases a with
  | worker j =>
    obtain ⟨hj, -, track, worker, freed, hw, rfl⟩ := worker_cases hs
    refine ⟨⟨k, stops, hpc, ?_⟩, ?_⟩
    · intro i hi
      have hij : i ≠ j := by
        rintro rfl
        have hrunning := hdone i hi
        cases hw <;> simp_all
      simp only [Sharding.after, Function.update_of_ne hij]
      exact hdone i hi
    · have hchange := sum_range_change hj (f := s.stopsAt)
        (g := (s.after j track worker freed).stopsAt) (by
          intro i hi
          simp only [Sharding.stopsAt, Sharding.after, Function.update_of_ne hi])
      have hat : (s.after j track worker freed).stopsAt j =
          track.contents.count (some .stop) + worker.stopped := by
        simp only [Sharding.stopsAt, Sharding.after, Function.update_self]
      have hle := worked_stopsAt hw
      have hfew := h.few
      omega
  | main =>
    simp only [shardStep, shardMain, hpc] at hs
    split_ifs at hs with hk hlast
    · obtain ⟨rfl, rfl⟩ := Prod.mk.inj (Option.some.inj hs)
      refine ⟨⟨k + 1, stops, rfl, ?_⟩, h.few⟩
      intro i hi
      rcases Nat.lt_succ_iff_lt_or_eq.mp hi with hik | rfl
      · exact hdone i hik
      · exact hlast
    · -- all workers would have ended, each with a stop
      have hall : n ≤ ∑ j ∈ Finset.range n, s.stopsAt j := by
        calc n = ∑ _j ∈ Finset.range n, 1 := by
              rw [Finset.sum_const_nat (fun _ _ => rfl), Finset.card_range, Nat.mul_one]
          _ ≤ ∑ j ∈ Finset.range n, s.stopsAt j := by
            apply Finset.sum_le_sum
            intro j hj
            have hj := Nat.lt_of_lt_of_le (Finset.mem_range.mp hj) (Nat.le_of_not_lt hk)
            rw [Sharding.stopsAt, ShardWorker.stopped, hdone j hj]
            exact Nat.le_add_left 1 _
      exact absurd h.few (Nat.not_lt_of_le hall)

theorem Hung.never_ends (h : Hung s) {es : List ShardNote} {u : Sharding n size}
    (hrun : Exec (shardStep c) (fun _ _ => True) s es u) : u.main ≠ .finished := by
  have hu : Hung u := hrun.invariant (fun _ u => Hung u) h fun _ _ _ _ _ hi _ hs => hi.step hs
  obtain ⟨k, stops, hpc, -⟩ := hu.joining
  rw [hpc]
  nofun

/-- The program can end from every state it can come to exactly if the conduits together have room,
and the pool has cells, for all tasks and stops. -/
theorem sharding_ends_iff (c : ShardConfig) (hn : 0 < n) (hsize : 0 < size)
    (ring : ℕ → ℕ → Option Job) :
    (∀ es s, Exec (shardStep c) (fun _ _ => True) (shardInit c hsize ring : Sharding n size) es s →
      ∃ es' u, Exec (shardStep c) (fun _ _ => True) s es' u ∧ u.main = .finished) ↔
      c.tasks + n ≤ n * (size - 1) ∧ c.tasks + n ≤ c.cells := by
  constructor
  · intro hends
    by_contra hnot
    have hlost : n * (size - 1) < c.tasks + n ∨ c.cells < c.tasks + n := by
      omega
    obtain ⟨es, s, hrun, halone, stops, hpc⟩ :=
      (init_alone c hsize ring : Alone c (shardInit c hsize ring : Sharding n size)).reaches_join
        hn hlost
    obtain ⟨es', u, hrest, hu⟩ := hends es s hrun
    exact (halone.hung hpc).never_ends hrest hu
  · rintro ⟨hroom, hcells⟩ es s hrun
    exact (sharding_invariant hn hroom hcells hrun).1.can_end hn hroom hcells

/-- `03_sharding` with its 2000 tasks can always still end; `02_fan_in_polling` with its 100 000 may
come to a state from which it never does. -/
theorem sharding_ends_iff_programs :
    (∀ es s, Exec (shardStep shardingProgram) (fun _ _ => True)
      (shardInit shardingProgram (by decide) fun _ _ => none : Sharding 2 1024) es s →
        ∃ es' u, Exec (shardStep shardingProgram) (fun _ _ => True) s es' u ∧ u.main = .finished) ∧
    ∃ es s, Exec (shardStep fanInProgram) (fun _ _ => True)
      (shardInit fanInProgram (by decide) fun _ _ => none : Sharding 2 1024) es s ∧
        ∀ es' u, Exec (shardStep fanInProgram) (fun _ _ => True) s es' u → u.main ≠ .finished := by
  refine ⟨(sharding_ends_iff shardingProgram (by decide) _ _).mpr (by decide), ?_⟩
  by_contra hnone
  have hends := (sharding_ends_iff fanInProgram (show 0 < 2 by decide)
    (show 0 < 1024 by decide) fun _ _ => none).mp (by
    intro es s hrun
    by_contra hnot
    refine hnone ⟨es, s, hrun, ?_⟩
    intro es' u hrest hu
    exact hnot ⟨es', u, hrest, hu⟩)
  exact absurd hends.1 (by decide)

end ConduitRuntime.Programs
