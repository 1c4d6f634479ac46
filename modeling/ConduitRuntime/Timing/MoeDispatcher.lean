import ConduitRuntime.Timing.Buckets

/-! `moe_dispatcher::process_tick`, with tasks arriving at its pipe at any time. Every task is put
on the wheel under the same node 42, also while that node waits in other buckets, and none is ever
cancelled. -/
namespace ConduitRuntime.Timing
open Execution
set_option autoImplicit false

/-- The fields of `ai_tensor_entity` that the dispatcher uses. -/
structure Tensor where
  expertId : BitVec 32
  ownershipMask : BitVec 8
  deriving DecidableEq

/-- `inbound` is the pipe, a queue of pointers into `tensor`. -/
structure MoeDispatcher where
  wheel : Wheel
  inbound : List ℕ
  tensor : ℕ → Tensor

/-- What one `process_tick` prints and takes: the head it reports as timed out, and the task it took
from the pipe. -/
structure MoeTick where
  timeout : Option ℕ
  taken : Option ℕ
  deriving DecidableEq

inductive MoeAction
  | push (task : ℕ)
  | processTick

inductive MoeEvent
  | pushed (task : ℕ)
  | ticked (t : MoeTick)

def entityId : ℕ := 42

/-- The hand-over to the GPU of the expert; tasks of other experts stay as they are. -/
def Tensor.route (t : Tensor) : Tensor :=
  if t.expertId = 0 then { t with ownershipMask := 0b00000010 }
  else if t.expertId = 1 then { t with ownershipMask := 0b00000100 }
  else t

def MoeDispatcher.processTick (c : WheelConfig) (d : MoeDispatcher) : MoeDispatcher × MoeTick :=
  let (wheel, expiredHead) := c.tick d.wheel
  -- the loop over the expired tasks ends after the first
  let timeout := if expiredHead = endOfList then none else some expiredHead
  match d.inbound with
  | [] => ({ d with wheel }, ⟨timeout, none⟩)
  | task :: inbound =>
    ({ wheel := c.schedule wheel entityId 100,
       inbound := inbound,
       tensor := Function.update d.tensor task (d.tensor task).route }, ⟨timeout, some task⟩)

def moeStep (c : WheelConfig) (d : MoeDispatcher) : MoeAction → Option (MoeDispatcher × MoeEvent)
  | .push task => some ({ d with inbound := d.inbound ++ [task] }, .pushed task)
  | .processTick =>
    let (d, t) := d.processTick c
    some (d, .ticked t)

def moeInit (tensor : ℕ → Tensor) : MoeDispatcher := ⟨.init, [], tensor⟩

/-! ## What a run shows -/

def MoeEvent.pushed? : MoeEvent → Option ℕ
  | .pushed task => some task
  | .ticked _ => none

def MoeEvent.tick? : MoeEvent → Option MoeTick
  | .pushed _ => none
  | .ticked t => some t

def pushedTasks (es : List MoeEvent) : List ℕ := es.filterMap MoeEvent.pushed?

def moeTicks (es : List MoeEvent) : List MoeTick := es.filterMap MoeEvent.tick?

def takenTasks (ts : List MoeTick) : List ℕ := ts.filterMap MoeTick.taken

/-- A task was taken by the tick number `k`, counted from 0. -/
def startedAt (ts : List MoeTick) (k : ℕ) : Bool := (ts[k]?.bind MoeTick.taken).isSome

/-- The ticks until a task is reported: a smaller wheel shortens the 100. -/
def WheelConfig.taskTimeout (c : WheelConfig) : ℕ := min 100 (c.slots.toNat - 1)

/-- What the tick number `k` reports. -/
def reportAt (c : WheelConfig) (ts : List MoeTick) (k : ℕ) : Option ℕ :=
  if c.taskTimeout ≤ k ∧ startedAt ts (k - c.taskTimeout) then some entityId else none

section Dispatcher
variable {c : WheelConfig} {es : List MoeEvent} {ts : List MoeTick} {d d' : MoeDispatcher}
  {t : MoeTick}

theorem startedAt_snoc (ts : List MoeTick) (t : MoeTick) (k : ℕ) :
    startedAt (ts ++ [t]) k = if k = ts.length then t.taken.isSome else startedAt ts k := by
  unfold startedAt
  by_cases hk : k = ts.length
  · subst hk
    simp
  · rw [if_neg hk]
    rcases Nat.lt_or_gt_of_ne hk with hlt | hgt
    · rw [List.getElem?_append_left hlt]
    · rw [List.getElem?_eq_none (by simp; omega), List.getElem?_eq_none (by omega)]

theorem taskTimeout_bounds (c : WheelConfig) :
    0 < c.taskTimeout ∧ c.taskTimeout < c.slots.toNat := by
  have := c.two_le
  unfold WheelConfig.taskTimeout
  omega

/-- The task that a tick takes is reported once its time is over, and changes no other report. -/
theorem reportAt_snoc (c : WheelConfig) (ts : List MoeTick) (t : MoeTick) (r : ℕ) :
    reportAt c (ts ++ [t]) (ts.length + r) =
      if r = c.taskTimeout ∧ t.taken.isSome then some entityId
      else reportAt c ts (ts.length + r) := by
  have hpos := (taskTimeout_bounds c).1
  unfold reportAt
  rw [startedAt_snoc]
  by_cases hr : r = c.taskTimeout
  · subst hr
    have hnone : startedAt ts ts.length = false := by simp [startedAt]
    simp [hnone]
  · by_cases hle : c.taskTimeout ≤ ts.length + r
    · have hne : ts.length + r - c.taskTimeout ≠ ts.length := by omega
      simp [hr, hne]
    · simp [hr, hle]

theorem reportAt_past {k : ℕ} (hk : k < ts.length) :
    reportAt c (ts ++ [t]) k = reportAt c ts k := by
  have hne : k - c.taskTimeout ≠ ts.length := by omega
  simp [reportAt, startedAt_snoc, hne]

theorem reportAt_far {k : ℕ} (hk : ts.length + c.taskTimeout ≤ k) : reportAt c ts k = none := by
  have hnone : startedAt ts (k - c.taskTimeout) = false := by
    unfold startedAt
    rw [List.getElem?_eq_none (by omega)]
    rfl
  simp [reportAt, hnone]

/-- The bucket the clock reaches after `r` ticks tells what will be reported then. -/
def HeadsTell (c : WheelConfig) (ts : List MoeTick) (w : Wheel) : Prop :=
  ∀ r, 0 < r → r ≤ c.slots.toNat →
    w.buckets (c.slotAfter w r) = (reportAt c ts (ts.length + r - 1)).getD endOfList

theorem headsTell_init (c : WheelConfig) : HeadsTell c [] .init := by
  intro r hr hle
  simp [reportAt, startedAt, Wheel.init]

/-- The clock's step, before a task is taken. -/
theorem HeadsTell.tick {w : Wheel} (h : HeadsTell c ts w) {r : ℕ} (hr : 0 < r)
    (hle : r ≤ c.slots.toNat) :
    (c.tick w).1.buckets (c.slotAfter (c.tick w).1 r) =
      (reportAt c ts (ts.length + r)).getD endOfList := by
  have hbounds := taskTimeout_bounds c
  rw [slotAfter_tick, tick_eq rfl, Wheel.setHead_buckets]
  rcases Nat.lt_or_eq_of_le hle with hlt | rfl
  · have hne : c.slotAfter w (r + 1) ≠ c.slotAfter w 1 := by
      intro heq
      have := slotAfter_inj ⟨Nat.succ_pos r, hlt⟩ ⟨Nat.one_pos, c.slots_pos⟩ heq
      omega
    rw [Function.update_of_ne hne]
    exact h (r + 1) (Nat.succ_pos r) hlt
  · -- a whole turn: the bucket that was just cleared
    have heq : c.slotAfter w (c.slots.toNat + 1) = c.slotAfter w 1 := by
      unfold WheelConfig.slotAfter
      rw [Nat.add_comm c.slots.toNat 1, ← Nat.add_assoc, Nat.add_mod_right]
    rw [heq, Function.update_self, reportAt_far (by omega)]
    rfl

theorem HeadsTell.report {w : Wheel} (h : HeadsTell c ts w) :
    (if (c.tick w).2 = endOfList then none else some (c.tick w).2) = reportAt c ts ts.length := by
  have hhead : (c.tick w).2 = (reportAt c ts ts.length).getD endOfList := by
    rw [tick_eq rfl]
    exact h 1 Nat.one_pos c.slots_pos
  rw [hhead]
  unfold reportAt
  by_cases hrep : c.taskTimeout ≤ ts.length ∧ startedAt ts (ts.length - c.taskTimeout)
  · rw [if_pos hrep]
    rfl
  · rw [if_neg hrep]
    rfl

theorem HeadsTell.processTick (h : HeadsTell c ts d.wheel) :
    (d.processTick c).2.timeout = reportAt c ts ts.length ∧
      HeadsTell c (ts ++ [(d.processTick c).2]) (d.processTick c).1.wheel := by
  have hreport := h.report
  have hlength : ∀ r, 0 < r → ∀ t : MoeTick, (ts ++ [t]).length + r - 1 = ts.length + r := by
    intro r hr t
    rw [List.length_append, List.length_singleton]
    omega
  cases hin : d.inbound with
  | nil =>
    simp only [MoeDispatcher.processTick, hin]
    refine ⟨hreport, ?_⟩
    intro r hr hle
    rw [hlength r hr, reportAt_snoc, h.tick hr hle]
    simp
  | cons task inbound =>
    simp only [MoeDispatcher.processTick, hin]
    refine ⟨hreport, ?_⟩
    intro r hr hle
    have hdelay : min (100 : BitVec 32).toNat (c.slots.toNat - 1) = c.taskTimeout := rfl
    rw [hlength r hr, reportAt_snoc, c.slotAfter_congr schedule_currentTick, schedule_buckets rfl,
      hdelay]
    by_cases heq : r = c.taskTimeout
    · subst heq
      simp
    · have hbounds := taskTimeout_bounds c
      have hne : c.slotAfter (c.tick d.wheel).1 r ≠ c.slotAfter (c.tick d.wheel).1 c.taskTimeout :=
        fun hslot => heq (slotAfter_inj ⟨hr, hle⟩ ⟨hbounds.1, hbounds.2.le⟩ hslot)
      rw [Function.update_of_ne hne, h.tick hr hle]
      simp [heq]

/-! ## Whole runs -/

@[simp] theorem Tensor.route_route (t : Tensor) : t.route.route = t.route := by
  unfold Tensor.route
  split_ifs <;> simp_all

/-- A task before or after it was taken. -/
def handedOver (tensor : ℕ → Tensor) (taken : List ℕ) (task : ℕ) : Tensor :=
  if task ∈ taken then (tensor task).route else tensor task

theorem handedOver_snoc (tensor : ℕ → Tensor) (taken : List ℕ) (task : ℕ) :
    Function.update (handedOver tensor taken) task (handedOver tensor taken task).route =
      handedOver tensor (taken ++ [task]) := by
  funext u
  by_cases hu : u = task
  · subst hu
    by_cases hmem : u ∈ taken <;> simp [handedOver, hmem]
  · simp [handedOver, hu]

structure MoeInv (c : WheelConfig) (tensor : ℕ → Tensor) (es : List MoeEvent)
    (d : MoeDispatcher) : Prop where
  heads : HeadsTell c (moeTicks es) d.wheel
  reports : ∀ k t, (moeTicks es)[k]? = some t → t.timeout = reportAt c (moeTicks es) k
  fifo : takenTasks (moeTicks es) ++ d.inbound = pushedTasks es
  tensors : d.tensor = handedOver tensor (takenTasks (moeTicks es))

theorem MoeInv.tick {tensor : ℕ → Tensor} (h : MoeInv c tensor es d) :
    MoeInv c tensor (es ++ [.ticked (d.processTick c).2]) (d.processTick c).1 := by
  obtain ⟨hheads, hreports, hfifo, htensors⟩ := h
  obtain ⟨htimeout, hheads'⟩ := hheads.processTick
  have hticks : moeTicks (es ++ [.ticked (d.processTick c).2]) =
      moeTicks es ++ [(d.processTick c).2] := filterMap_snoc _ es _
  have hpushed : pushedTasks (es ++ [.ticked (d.processTick c).2]) = pushedTasks es := by
    simp [pushedTasks, MoeEvent.pushed?]
  have htaken : takenTasks (moeTicks es ++ [(d.processTick c).2]) =
      takenTasks (moeTicks es) ++ (d.processTick c).2.taken.toList := filterMap_snoc _ _ _
  refine ⟨?_, ?_, ?_, ?_⟩
  · rw [hticks]
    exact hheads'
  · intro k t hk
    rw [hticks] at hk ⊢
    rcases Nat.lt_trichotomy k (moeTicks es).length with hlt | rfl | hgt
    · rw [List.getElem?_append_left hlt] at hk
      rw [reportAt_past hlt]
      exact hreports k t hk
    · rw [List.getElem?_concat_length] at hk
      cases hk
      have hself := reportAt_snoc c (moeTicks es) (d.processTick c).2 0
      rw [Nat.add_zero, if_neg (fun hzero => (taskTimeout_bounds c).1.ne hzero.1)] at hself
      rw [hself]
      exact htimeout
    · rw [List.getElem?_eq_none (by simp; omega)] at hk
      cases hk
  · rw [hticks, hpushed, htaken, ← hfifo]
    cases hin : d.inbound <;> simp [MoeDispatcher.processTick, hin]
  · rw [hticks, htaken]
    cases hin : d.inbound with
    | nil => simpa [MoeDispatcher.processTick, hin] using htensors
    | cons task inbound =>
      simp only [MoeDispatcher.processTick, hin, Option.toList_some]
      rw [htensors, handedOver_snoc]

theorem MoeInv.step {tensor : ℕ → Tensor} (h : MoeInv c tensor es d) {a : MoeAction} {e : MoeEvent}
    (hs : moeStep c d a = some (d', e)) : MoeInv c tensor (es ++ [e]) d' := by
  cases a with
  | push task =>
    cases hs
    obtain ⟨hheads, hreports, hfifo, htensors⟩ := h
    have hticks : moeTicks (es ++ [.pushed task]) = moeTicks es := by
      simp [moeTicks, MoeEvent.tick?]
    have hpushed : pushedTasks (es ++ [.pushed task]) = pushedTasks es ++ [task] :=
      filterMap_snoc _ es _
    refine ⟨?_, ?_, ?_, ?_⟩
    · rw [hticks]
      exact hheads
    · rw [hticks]
      exact hreports
    · rw [hticks, hpushed, ← hfifo, List.append_assoc]
    · rw [hticks]
      exact htensors
  | processTick =>
    cases hs
    exact h.tick

/-- Tasks are taken in the order they were pushed, one in a tick; each is handed to its expert's
GPU, and each is reported as timed out, under the number 42, exactly 100 ticks after it was taken,
or one tick less than the wheel has slots if that is less. Nothing else is ever reported, and a task
that was done in time is reported all the same. -/
theorem moe_reports_every_task (c : WheelConfig) (tensor : ℕ → Tensor) (es : List MoeEvent)
    (d : MoeDispatcher) (h : Exec (moeStep c) (fun _ _ => True) (moeInit tensor) es d) :
    (∀ k t, (moeTicks es)[k]? = some t → t.timeout = reportAt c (moeTicks es) k) ∧
    takenTasks (moeTicks es) ++ d.inbound = pushedTasks es ∧
    d.tensor = handedOver tensor (takenTasks (moeTicks es)) := by
  have hi : MoeInv c tensor es d := by
    refine h.invariant (fun es d => MoeInv c tensor es d) ?_ ?_
    · refine ⟨headsTell_init c, ?_, rfl, ?_⟩
      · intro k t hk
        cases hk
      · funext task
        rfl
    · intro es d a d' e hi _ hs
      exact hi.step hs
  exact ⟨hi.reports, hi.fifo, hi.tensors⟩

/-- A wheel of four slots: two tasks on the wheel at once, each reported after three ticks. -/
theorem moe_reports_every_task_two :
    ∃ es s, Exec (moeStep fourSlots) (fun _ _ => True) (moeInit fun _ => ⟨0, 0⟩) es s ∧
      (moeTicks es).map MoeTick.timeout = [none, none, none, some 42, some 42] ∧
      ∀ k t, (moeTicks es)[k]? = some t → t.timeout = reportAt fourSlots (moeTicks es) k := by
  have h := exec_of_run (show run (moeStep fourSlots) (fun _ _ => True)
    (moeInit fun _ => ⟨0, 0⟩)
    [.push 7, .push 8, .processTick, .processTick, .processTick, .processTick, .processTick] =
      some (_, _) from rfl)
  exact ⟨_, _, h, by decide, (moe_reports_every_task _ _ _ _ h).1⟩

end Dispatcher

end ConduitRuntime.Timing
