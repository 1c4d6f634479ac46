import Mathlib.Algebra.Order.Ring.Nat
import ConduitRuntime.Foundations.Budget

/-! The program `03_graceful_drain`: the main thread generates traffic until a shutdown is
requested, by a signal or by the event counter, then pushes a poison pill and joins the worker,
which handles events until it gets the pill. A call of `make`, `push` or `pop` is one step; the pool
is the number of its free cells, and the conduit a queue of pointers, which may be null, with room
for one less than its size. A pointer that `push` refuses has been released from its handle and is
leaked. -/
namespace ConduitRuntime.Programs
open Execution
set_option autoImplicit false

/-- `work_event` by its `id`, or with `is_poison_pill`. -/
inductive Work
  | event (id : ℕ)
  | pill
  deriving DecidableEq

/-- The limit of the event counter, the room of the conduit and the cells of the pool. -/
structure DrainConfig where
  limit : ℕ
  room : ℕ
  cells : ℕ

/-- The numbers of the program. -/
def drainProgram : DrainConfig := ⟨50, 1023, 1024⟩

/-- Where the main thread is; `push` and `pushPill` hold what `make` returned. -/
inductive DrainMain
  | test
  | make
  | push (ptr : Option ℕ)
  | check
  | makePill
  | pushPill (made : Bool)
  | join
  | finished
  deriving DecidableEq

inductive DrainWorker
  | pop
  | work (id : ℕ)
  | finished
  deriving DecidableEq

structure Drain where
  shutdownRequested : Bool
  eventCounter : ℕ
  main : DrainMain
  worker : DrainWorker
  queue : List (Option Work)
  free : ℕ
  leaked : ℕ
  processed : List ℕ

inductive DrainAction
  | main
  | worker
  | signal

/-- The answers of `push`, for the observer. -/
inductive DrainNote
  | silent
  | pushed (accepted : Bool)
  | handled (id : ℕ)

/-- `push` of a pointer that no handle owns any more. -/
def Drain.push (c : DrainConfig) (s : Drain) (ptr : Option Work) (accepted refused : DrainMain) :
    Drain × DrainNote :=
  if s.queue.length < c.room then
    ({ s with queue := s.queue ++ [ptr], main := accepted }, .pushed true)
  else ({ s with leaked := s.leaked + ptr.toList.length, main := refused }, .pushed false)

def drainMain (c : DrainConfig) (s : Drain) : Option (Drain × DrainNote) :=
  match s.main with
  | .test => some ({ s with main := if s.shutdownRequested then .makePill else .make }, .silent)
  | .make =>
    if s.free = 0 then
      some ({ s with eventCounter := s.eventCounter + 1, main := .push none }, .silent)
    else
      some ({ s with
        eventCounter := s.eventCounter + 1
        free := s.free - 1
        main := .push (some s.eventCounter) }, .silent)
  | .push ptr => some (s.push c (ptr.map .event) .check .check)
  | .check =>
    some ({ s with
      shutdownRequested := s.shutdownRequested || decide (s.eventCounter = c.limit)
      main := .test }, .silent)
  | .makePill =>
    if s.free = 0 then some ({ s with main := .pushPill false }, .silent)
    else some ({ s with free := s.free - 1, main := .pushPill true }, .silent)
  | .pushPill made => some (s.push c (if made then some .pill else none) .join .makePill)
  | .join =>
    match s.worker with
    | .finished => some ({ s with main := .finished }, .silent)
    | _ => none
  | .finished => none

def drainWorker (s : Drain) : Option (Drain × DrainNote) :=
  match s.worker with
  | .pop =>
    match s.queue with
    | [] => some (s, .silent)
    | none :: queue => some ({ s with queue := queue }, .silent)
    | some (.event id) :: queue => some ({ s with queue := queue, worker := .work id }, .silent)
    | some .pill :: queue =>
      some ({ s with queue := queue, free := s.free + 1, worker := .finished }, .silent)
  | .work id =>
    some ({ s with processed := s.processed ++ [id], free := s.free + 1, worker := .pop },
      .handled id)
  | .finished => none

def drainStep (c : DrainConfig) (s : Drain) : DrainAction → Option (Drain × DrainNote)
  | .main => drainMain c s
  | .worker => drainWorker s
  | .signal => some ({ s with shutdownRequested := true }, .silent)

def drainInit (c : DrainConfig) : Drain where
  shutdownRequested := false
  eventCounter := 0
  main := .test
  worker := .pop
  queue := []
  free := c.cells
  leaked := 0
  processed := []

/-! ## Where the events are -/

def DrainMain.inHand : DrainMain → List ℕ
  | .push (some id) => [id]
  | _ => []

def DrainWorker.inHand : DrainWorker → List ℕ
  | .work id => [id]
  | _ => []

/-- The pill made, before it is in the conduit. -/
def DrainMain.pills : DrainMain → ℕ
  | .pushPill true => 1
  | _ => 0

/-- The pill is in the conduit or has been taken. -/
def DrainMain.sent : DrainMain → Bool
  | .join => true
  | .finished => true
  | _ => false

/-- The main thread may still make an event. -/
def Drain.mayMake (s : Drain) : Prop :=
  s.main = .make ∨ s.main = .test ∧ s.shutdownRequested = false

/-- `ids` are the events in the conduit. While the pill is on its way they are all there is; once it
is sent it comes last, and when it has been taken nothing is left. -/
structure DrainInv (c : DrainConfig) (s : Drain) (ids : List ℕ) : Prop where
  counter_le : s.eventCounter ≤ c.limit
  counter_lt : s.mayMake → s.eventCounter < c.limit
  made : s.main ≠ .push none ∧ s.main ≠ .pushPill false
  order : s.processed ++ s.worker.inHand ++ ids ++ s.main.inHand = List.range s.eventCounter
  account : s.free + s.queue.length + s.worker.inHand.length + s.main.inHand.length + s.main.pills =
    c.cells
  before : s.main.sent = false → s.queue = ids.map (fun id => some (.event id)) ∧
    s.worker ≠ .finished
  after : s.main.sent = true → s.queue = ids.map (fun id => some (.event id)) ++ [some .pill] ∧
      s.worker ≠ .finished ∨ s.queue = [] ∧ ids = [] ∧ s.worker = .finished
  leaked : s.leaked = 0

section Steps
variable {c : DrainConfig} {s t : Drain} {ids : List ℕ} {e : DrainNote}

theorem DrainInv.length_le (h : DrainInv c s ids) :
    ids.length + s.worker.inHand.length + s.main.inHand.length ≤ s.eventCounter := by
  have hlen := congrArg List.length h.order
  simp only [List.length_append, List.length_range] at hlen
  omega

theorem DrainInv.queue_le (h : DrainInv c s ids) (hsent : s.main.sent = false) :
    s.queue.length = ids.length := by
  rw [(h.before hsent).1, List.length_map]

/-- Before the pill is sent there is a free cell for what the main thread makes next. -/
theorem DrainInv.free_pos (hcells : c.limit < c.cells) (h : DrainInv c s ids)
    (hsent : s.main.sent = false) (hpills : s.main.pills = 0) (hhand : s.main.inHand = []) :
    s.free ≠ 0 := by
  have hacc := h.account
  have hlen := h.length_le
  have hcount := h.counter_le
  rw [h.queue_le hsent, hpills, hhand] at hacc
  simp only [List.length_nil] at hacc
  omega

/-- and room for what it pushes. -/
theorem DrainInv.room (hroom : c.limit < c.room) (h : DrainInv c s ids)
    (hsent : s.main.sent = false) : s.queue.length < c.room := by
  have hlen := h.length_le
  have hcount := h.counter_le
  rw [h.queue_le hsent]
  omega

/-- A step of the main thread that leaves the conduit alone, before the pill is sent. -/
theorem DrainInv.moved (h : DrainInv c s ids) (hsent : s.main.sent = false) {flag : Bool}
    {count free : ℕ} {main : DrainMain} (hsent' : main.sent = false) (hcount : count ≤ c.limit)
    (hlt : main = .make ∨ main = .test ∧ flag = false → count < c.limit)
    (hmade : main ≠ .push none ∧ main ≠ .pushPill false)
    (horder : s.processed ++ s.worker.inHand ++ ids ++ main.inHand = List.range count)
    (hacc : free + main.inHand.length + main.pills =
      s.free + s.main.inHand.length + s.main.pills) :
    DrainInv c { s with
      shutdownRequested := flag
      eventCounter := count
      main := main
      free := free } ids := by
  refine ⟨hcount, hlt, hmade, horder, ?_, fun _ => h.before hsent, ?_, h.leaked⟩
  · have hold := h.account
    simp only
    omega
  · intro hnow
    rw [hsent'] at hnow
    cases hnow

theorem DrainInv.pushed_event (h : DrainInv c s ids) {id : ℕ} (hpc : s.main = .push (some id)) :
    DrainInv c { s with queue := s.queue ++ [some (.event id)], main := .check } (ids ++ [id]) := by
  obtain ⟨hle, -, -, horder, hacc, hbefore, -, hleaked⟩ := h
  rw [hpc] at horder hacc hbefore
  obtain ⟨hqueue, hworker⟩ := hbefore rfl
  refine ⟨hle, ?_, by simp, ?_, ?_, ?_, nofun, hleaked⟩
  · intro hmay
    simp [Drain.mayMake] at hmay
  · simpa [DrainMain.inHand] using horder
  · simp only [DrainMain.inHand, DrainMain.pills, List.length_nil, List.length_singleton,
      List.length_append] at hacc ⊢
    omega
  · intro _
    refine ⟨?_, hworker⟩
    simp [hqueue]

theorem DrainInv.pushed_pill (h : DrainInv c s ids) (hpc : s.main = .pushPill true) :
    DrainInv c { s with queue := s.queue ++ [some .pill], main := .join } ids := by
  obtain ⟨hle, -, -, horder, hacc, hbefore, -, hleaked⟩ := h
  rw [hpc] at horder hacc hbefore
  obtain ⟨hqueue, hworker⟩ := hbefore rfl
  refine ⟨hle, ?_, by simp, ?_, ?_, nofun, ?_, hleaked⟩
  · intro hmay
    simp [Drain.mayMake] at hmay
  · simpa [DrainMain.inHand] using horder
  · simp only [DrainMain.inHand, DrainMain.pills, List.length_nil, List.length_append,
      List.length_singleton] at hacc ⊢
    omega
  · intro _
    left
    refine ⟨?_, hworker⟩
    simp [hqueue]

theorem DrainInv.joined (h : DrainInv c s ids) (hpc : s.main = .join) :
    DrainInv c { s with main := .finished } ids := by
  obtain ⟨hle, -, -, horder, hacc, -, hafter, hleaked⟩ := h
  rw [hpc] at horder hacc hafter
  refine ⟨hle, ?_, by simp, ?_, ?_, nofun, fun _ => hafter rfl, hleaked⟩
  · intro hmay
    simp [Drain.mayMake] at hmay
  · simpa [DrainMain.inHand] using horder
  · simpa [DrainMain.inHand, DrainMain.pills] using hacc

theorem DrainInv.main_step (hroom : c.limit < c.room) (hcells : c.limit < c.cells)
    (h : DrainInv c s ids) (hs : drainMain c s = some (t, e)) :
    (∃ ids', DrainInv c t ids') ∧ e ≠ .pushed false := by
  have horder := h.order
  unfold drainMain at hs
  split at hs
  · rename_i hpc
    cases hs
    have hsent : s.main.sent = false := by rw [hpc]; rfl
    rw [hpc] at horder
    refine ⟨⟨ids, h.moved hsent ?_ h.counter_le ?_ ?_ ?_ ?_⟩, by simp⟩
    · split <;> rfl
    · intro hmay
      apply h.counter_lt
      right
      refine ⟨hpc, ?_⟩
      cases hflag : s.shutdownRequested with
      | false => rfl
      | true => simp [hflag] at hmay
    · split <;> simp
    · split <;> exact horder
    · rw [hpc]
      split <;> rfl
  · rename_i hpc
    have hsent : s.main.sent = false := by rw [hpc]; rfl
    have hfree := h.free_pos hcells hsent (by rw [hpc]; rfl) (by rw [hpc]; rfl)
    rw [if_neg hfree] at hs
    cases hs
    rw [hpc] at horder
    refine ⟨⟨ids, h.moved hsent rfl (h.counter_lt (.inl hpc)) (by simp) (by simp) ?_ ?_⟩, by simp⟩
    · simp only [DrainMain.inHand, List.append_nil] at horder ⊢
      rw [horder, List.range_succ]
    · rw [hpc]
      simp only [DrainMain.inHand, DrainMain.pills, List.length_nil, List.length_singleton]
      omega
  · rename_i ptr hpc
    obtain ⟨id, rfl⟩ : ∃ id, ptr = some id := by
      cases ptr with
      | none => exact absurd hpc h.made.1
      | some id => exact ⟨id, rfl⟩
    have hsent : s.main.sent = false := by rw [hpc]; rfl
    simp only [Drain.push, h.room hroom hsent, if_true, Option.map_some] at hs
    cases hs
    exact ⟨⟨_, h.pushed_event hpc⟩, by simp⟩
  · rename_i hpc
    cases hs
    have hsent : s.main.sent = false := by rw [hpc]; rfl
    rw [hpc] at horder
    refine ⟨⟨ids, h.moved hsent rfl h.counter_le ?_ (by simp) horder ?_⟩, by simp⟩
    · intro hmay
      simp only [reduceCtorEq, false_or, true_and, Bool.or_eq_false_iff,
        decide_eq_false_iff_not] at hmay
      have hle := h.counter_le
      omega
    · rw [hpc]
      rfl
  · rename_i hpc
    have hsent : s.main.sent = false := by rw [hpc]; rfl
    have hfree := h.free_pos hcells hsent (by rw [hpc]; rfl) (by rw [hpc]; rfl)
    rw [if_neg hfree] at hs
    cases hs
    rw [hpc] at horder
    refine ⟨⟨ids, h.moved hsent rfl h.counter_le (by simp) (by simp) horder ?_⟩, by simp⟩
    rw [hpc]
    simp only [DrainMain.inHand, DrainMain.pills, List.length_nil]
    omega
  · rename_i made hpc
    obtain rfl : made = true := by
      cases made with
      | false => exact absurd hpc h.made.2
      | true => rfl
    have hsent : s.main.sent = false := by rw [hpc]; rfl
    simp only [Drain.push, h.room hroom hsent, if_true] at hs
    cases hs
    exact ⟨⟨ids, h.pushed_pill hpc⟩, by simp⟩
  · rename_i hpc
    split at hs
    · cases hs
      exact ⟨⟨ids, h.joined hpc⟩, by simp⟩
    · cases hs
  · cases hs

/-- The worker takes the first event, of those that wait. -/
theorem DrainInv.pop_event (h : DrainInv c s ids) {id : ℕ} {queue : List (Option Work)}
    (hpc : s.worker = .pop) (hqueue : s.queue = some (.event id) :: queue) :
    ∃ rest, ids = id :: rest ∧
      DrainInv c { s with queue := queue, worker := .work id } rest := by
  obtain ⟨hle, hlt, hmade, horder, hacc, hbefore, hafter, hleaked⟩ := h
  rw [hpc] at horder hacc
  have hids : ∃ rest, ids = id :: rest := by
    cases hsent : s.main.sent with
    | false =>
      have hq := (hbefore hsent).1
      rw [hqueue] at hq
      cases ids with
      | nil => cases hq
      | cons j rest =>
        cases hq
        exact ⟨rest, rfl⟩
    | true =>
      rcases hafter hsent with ⟨hq, -⟩ | ⟨hq, -⟩
      · rw [hqueue] at hq
        cases ids with
        | nil => cases hq
        | cons j rest =>
          cases hq
          exact ⟨rest, rfl⟩
      · rw [hqueue] at hq
        cases hq
  obtain ⟨rest, rfl⟩ := hids
  refine ⟨rest, rfl, hle, hlt, hmade, ?_, ?_, ?_, ?_, hleaked⟩
  · simpa [DrainWorker.inHand] using horder
  · rw [hqueue] at hacc
    simp only [DrainWorker.inHand, List.length_cons, List.length_nil] at hacc ⊢
    omega
  · intro hsent
    have hq := (hbefore hsent).1
    rw [hqueue] at hq
    exact ⟨(List.cons.inj hq).2, by simp⟩
  · intro hsent
    left
    rcases hafter hsent with ⟨hq, -⟩ | ⟨hq, -⟩
    · rw [hqueue] at hq
      exact ⟨(List.cons.inj hq).2, by simp⟩
    · rw [hqueue] at hq
      cases hq

/-- It finds the pill only behind all events. -/
theorem DrainInv.pop_pill (h : DrainInv c s ids) {queue : List (Option Work)}
    (hpc : s.worker = .pop) (hqueue : s.queue = some .pill :: queue) :
    s.main.sent = true ∧ queue = [] ∧ ids = [] := by
  cases hsent : s.main.sent with
  | false =>
    have hq := (h.before hsent).1
    rw [hqueue] at hq
    cases ids with
    | nil => cases hq
    | cons j rest => cases hq
  | true =>
    rcases h.after hsent with ⟨hq, -⟩ | ⟨-, -, hdone⟩
    · rw [hqueue] at hq
      cases ids with
      | nil =>
        cases hq
        exact ⟨rfl, rfl, rfl⟩
      | cons j rest => cases hq
    · rw [hpc] at hdone
      cases hdone

theorem DrainInv.worker_step (h : DrainInv c s ids) (hs : drainWorker s = some (t, e)) :
    (∃ ids', DrainInv c t ids') ∧ e ≠ .pushed false := by
  unfold drainWorker at hs
  split at hs
  · rename_i hpc
    split at hs
    · cases hs
      exact ⟨⟨ids, h⟩, by simp⟩
    · rename_i queue hqueue
      -- no null pointer was ever pushed
      exfalso
      cases hsent : s.main.sent with
      | false =>
        have hq := (h.before hsent).1
        rw [hqueue] at hq
        cases ids <;> cases hq
      | true =>
        rcases h.after hsent with ⟨hq, -⟩ | ⟨hq, -⟩
        · rw [hqueue] at hq
          cases ids <;> cases hq
        · rw [hqueue] at hq
          cases hq
    · rename_i id queue hqueue
      cases hs
      obtain ⟨rest, -, hrest⟩ := h.pop_event hpc hqueue
      exact ⟨⟨rest, hrest⟩, by simp⟩
    · rename_i queue hqueue
      cases hs
      obtain ⟨hsent, rfl, rfl⟩ := h.pop_pill hpc hqueue
      obtain ⟨hle, hlt, hmade, horder, hacc, -, -, hleaked⟩ := h
      rw [hpc] at horder hacc
      rw [hqueue] at hacc
      refine ⟨⟨[], hle, hlt, hmade, ?_, ?_, ?_, ?_, hleaked⟩, by simp⟩
      · simpa [DrainWorker.inHand] using horder
      · simp only [DrainWorker.inHand, List.length_cons, List.length_nil] at hacc ⊢
        omega
      · intro hnot
        simp [hsent] at hnot
      · intro _
        exact .inr ⟨rfl, rfl, rfl⟩
  · rename_i id hpc
    cases hs
    obtain ⟨hle, hlt, hmade, horder, hacc, hbefore, hafter, hleaked⟩ := h
    rw [hpc] at horder hacc
    refine ⟨⟨ids, hle, hlt, hmade, ?_, ?_, ?_, ?_, hleaked⟩, by simp⟩
    · simpa [DrainWorker.inHand] using horder
    · simp only [DrainWorker.inHand, List.length_cons, List.length_nil] at hacc ⊢
      omega
    · intro hsent
      exact ⟨(hbefore hsent).1, by simp⟩
    · intro hsent
      rcases hafter hsent with ⟨hq, -⟩ | ⟨-, -, hdone⟩
      · exact .inl ⟨hq, by simp⟩
      · rw [hpc] at hdone
        cases hdone
  · cases hs

theorem DrainInv.step (hroom : c.limit < c.room) (hcells : c.limit < c.cells)
    (h : DrainInv c s ids) {a : DrainAction} (hs : drainStep c s a = some (t, e)) :
    (∃ ids', DrainInv c t ids') ∧ e ≠ .pushed false := by
  cases a with
  | main => exact h.main_step hroom hcells hs
  | worker => exact h.worker_step hs
  | signal =>
    cases hs
    obtain ⟨hle, hlt, hmade, horder, hacc, hbefore, hafter, hleaked⟩ := h
    refine ⟨⟨ids, hle, ?_, hmade, horder, hacc, hbefore, hafter, hleaked⟩, by simp⟩
    rintro (hmake | ⟨-, hflag⟩)
    · exact hlt (.inl hmake)
    · cases hflag

theorem drain_invariant (hlimit : 0 < c.limit) (hroom : c.limit < c.room)
    (hcells : c.limit < c.cells) {es : List DrainNote}
    (h : Exec (drainStep c) (fun _ _ => True) (drainInit c) es s) :
    (∃ ids, DrainInv c s ids) ∧ .pushed false ∉ es := by
  refine h.invariant (fun es s => (∃ ids, DrainInv c s ids) ∧ .pushed false ∉ es) ?_ ?_
  · refine ⟨⟨[], Nat.zero_le _, fun _ => hlimit, ?_, rfl, ?_, ?_, ?_, rfl⟩, by simp⟩
    · simp [drainInit]
    · simp [drainInit, DrainWorker.inHand, DrainMain.inHand, DrainMain.pills]
    · intro _
      exact ⟨rfl, by simp [drainInit]⟩
    · intro hsent
      cases hsent
  · rintro es s a t e ⟨⟨ids, hi⟩, hnone⟩ _ hs
    obtain ⟨hnext, he⟩ := hi.step hroom hcells hs
    refine ⟨hnext, ?_⟩
    simp only [List.mem_append, List.mem_singleton, not_or]
    exact ⟨hnone, he.symm⟩

/-! ## The end -/

def DrainAction.isWorker : DrainAction → Bool
  | .worker => true
  | _ => false

/-- How many steps the worker has to its end, once the pill is sent. -/
def Drain.stepsLeft (s : Drain) : ℕ :=
  match s.worker with
  | .pop => 2 * s.queue.length
  | .work _ => 2 * s.queue.length + 1
  | .finished => 0

theorem sent_step (h : DrainInv c s ids) (hsent : s.main.sent = true) {a : DrainAction}
    (hs : drainStep c s a = some (t, e)) :
    t.main.sent = true ∧ a.isWorker.toNat + t.stepsLeft ≤ s.stepsLeft := by
  cases a with
  | signal =>
    cases hs
    exact ⟨hsent, by simp [DrainAction.isWorker, Drain.stepsLeft]⟩
  | main =>
    cases hpc : s.main with
    | join =>
      simp only [drainStep, drainMain, hpc] at hs
      split at hs
      · cases hs
        exact ⟨rfl, by simp [DrainAction.isWorker, Drain.stepsLeft]⟩
      · cases hs
    | finished => simp [drainStep, drainMain, hpc] at hs
    | _ => rw [hpc] at hsent; cases hsent
  | worker =>
    simp only [drainStep, drainWorker] at hs
    split at hs
    · rename_i hpc
      split at hs
      · rename_i hqueue
        -- the pill is still there
        rcases h.after hsent with ⟨hq, -⟩ | ⟨-, -, hdone⟩
        · rw [hqueue] at hq
          simp at hq
        · rw [hpc] at hdone
          cases hdone
      · rename_i queue hqueue
        cases hs
        refine ⟨hsent, ?_⟩
        simp only [DrainAction.isWorker, Bool.toNat_true, Drain.stepsLeft, hpc, hqueue,
          List.length_cons]
        omega
      · rename_i id queue hqueue
        cases hs
        refine ⟨hsent, ?_⟩
        simp only [DrainAction.isWorker, Bool.toNat_true, Drain.stepsLeft, hpc, hqueue,
          List.length_cons]
        omega
      · rename_i queue hqueue
        cases hs
        refine ⟨hsent, ?_⟩
        simp only [DrainAction.isWorker, Bool.toNat_true, Drain.stepsLeft, hpc, hqueue,
          List.length_cons]
        omega
    · rename_i id hpc
      cases hs
      refine ⟨hsent, ?_⟩
      simp only [DrainAction.isWorker, Bool.toNat_true, Drain.stepsLeft, hpc]
      omega
    · cases hs

theorem worker_can_go_on (hpc : s.worker ≠ .finished) : (drainStep c s .worker).isSome := by
  simp only [drainStep, drainWorker]
  split
  · split <;> rfl
  · rfl
  · rename_i hdone
    exact absurd hdone hpc

theorem sent_run (hroom : c.limit < c.room) (hcells : c.limit < c.cells) (h : DrainInv c s ids)
    (hsent : s.main.sent = true) {as : List DrainAction} {es : List DrainNote}
    (hrun : run (drainStep c) (fun _ _ => True) s as = some (es, t)) :
    as.countP DrainAction.isWorker ≤ 2 * s.queue.length + 1 := by
  obtain ⟨-, hcount, -⟩ := run_within_budget
    (fun s => (∃ ids, DrainInv c s ids) ∧ s.main.sent = true) DrainAction.isWorker Drain.stepsLeft
    (fun _ => (none : Option Unit)) (fun _ => 0)
    (by
      rintro s a t e ⟨⟨ids, hi⟩, hsent⟩ (_ : True) hs
      obtain ⟨hsent', hleft⟩ := sent_step hi hsent hs
      exact ⟨⟨(hi.step hroom hcells hs).1, hsent'⟩, hleft, Nat.le_refl 0⟩)
    ⟨⟨ids, h⟩, hsent⟩ (fun _ _ => trivial) hrun
  have hbound : s.stepsLeft ≤ 2 * s.queue.length + 1 := by
    unfold Drain.stepsLeft
    split <;> omega
  omega

end Steps

/-- With more cells and more room than events, as in the program: whenever the signal comes, no push
is refused and nothing leaked; the worker handles the events in the order they were made; when it is
at its end, it has handled all of them, the conduit is empty and every cell is free; and once the
pill is sent the worker is never stuck and at its end within two steps for each pointer in the
conduit and one more. -/
theorem graceful_drain (c : DrainConfig) (hlimit : 0 < c.limit) (hroom : c.limit < c.room)
    (hcells : c.limit < c.cells) (es : List DrainNote) (s : Drain)
    (h : Exec (drainStep c) (fun _ _ => True) (drainInit c) es s) :
    .pushed false ∉ es ∧ s.leaked = 0 ∧ s.processed <+: List.range s.eventCounter ∧
    (s.worker = .finished →
      s.processed = List.range s.eventCounter ∧ s.queue = [] ∧ s.free = c.cells) ∧
    (s.main.sent = true → ∀ as es' u,
      run (drainStep c) (fun _ _ => True) s as = some (es', u) →
        as.countP DrainAction.isWorker ≤ 2 * s.queue.length + 1 ∧
        (u.worker ≠ .finished → (drainStep c u .worker).isSome)) := by
  obtain ⟨⟨ids, hi⟩, hnone⟩ := drain_invariant hlimit hroom hcells h
  refine ⟨hnone, hi.leaked, ?_, ?_, ?_⟩
  · rw [← hi.order, List.append_assoc, List.append_assoc]
    exact List.prefix_append _ _
  · intro hdone
    have hsent : s.main.sent = true := by
      by_contra hnot
      exact (hi.before (Bool.eq_false_of_not_eq_true hnot)).2 hdone
    have hhand : s.main.inHand = [] ∧ s.main.pills = 0 := by
      cases hpc : s.main with
      | join => exact ⟨rfl, rfl⟩
      | finished => exact ⟨rfl, rfl⟩
      | _ => rw [hpc] at hsent; cases hsent
    rcases hi.after hsent with ⟨-, hnot⟩ | ⟨hqueue, rfl, -⟩
    · exact absurd hdone hnot
    · have horder := hi.order
      have hacc := hi.account
      rw [hdone, hhand.1] at horder
      rw [hdone, hhand.1, hhand.2, hqueue] at hacc
      simp only [DrainWorker.inHand, List.append_nil] at horder
      simp only [DrainWorker.inHand, List.length_nil, Nat.add_zero] at hacc
      exact ⟨horder, hqueue, hacc⟩
  · intro hsent as es' u hrun
    exact ⟨sent_run hroom hcells hi hsent hrun, worker_can_go_on⟩

/-- The program with a signal after its second event. -/
theorem graceful_drain_signal :
    ∃ (es : List DrainNote) (s : Drain),
      Exec (drainStep drainProgram) (fun _ _ => True) (drainInit drainProgram) es s ∧
      s.main = .finished ∧ s.processed = [0, 1] ∧ s.queue = [] ∧ s.free = 1024 ∧ s.leaked = 0 := by
  have h := exec_of_run (show run (drainStep drainProgram) (fun _ _ => True)
    (drainInit drainProgram)
    [.main, .main, .main, .main, .main, .main, .main, .worker, .signal, .main, .main, .main, .main,
      .worker, .worker, .worker, .worker, .main] = some (_, _) from rfl)
  obtain ⟨-, hleaked, -, hdone, -⟩ :=
    graceful_drain drainProgram (by decide) (by decide) (by decide) _ _ h
  obtain ⟨horder, hqueue, hfree⟩ := hdone rfl
  exact ⟨_, _, h, rfl, horder, hqueue, hfree, hleaked⟩

end ConduitRuntime.Programs
