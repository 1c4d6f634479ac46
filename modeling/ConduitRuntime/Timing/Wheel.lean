import ConduitRuntime.Foundations.Countdown
import ConduitRuntime.Foundations.DoublyLinked
import ConduitRuntime.Foundations.Execution
import ConduitRuntime.Foundations.MaskedIndex

/-! `timing_wheel`: buckets of intrusive doubly linked nodes that live in the slab's memory. A
bucket stores the index of its first node and expiry is encoded by the bucket's number only. -/
namespace ConduitRuntime.Timing
open MaskedIndex Countdown DoublyLinked
set_option autoImplicit false

/-- `0xFFFFFFFF`: no node, no bucket. -/
def endOfList : ℕ := 0xFFFFFFFF

/-- `WheelSlots` with its static assertion, and at least two slots. -/
structure WheelConfig where
  slots : BitVec 32
  slots_pow : slots &&& (slots - 1) = 0
  two_le : 2 ≤ slots.toNat

def fourSlots : WheelConfig where
  slots := 4
  slots_pow := by decide
  two_le := by decide

structure TimingNode where
  timerNext : ℕ := endOfList
  timerPrev : ℕ := endOfList
  wheelBucket : ℕ := endOfList

/-- The wheel together with the memory `get_by_index` reads. -/
structure Wheel where
  buckets : ℕ → ℕ
  currentTick : BitVec 64
  node : ℕ → TimingNode

namespace Wheel

def timerNext (w : Wheel) (i : ℕ) : ℕ := (w.node i).timerNext

def timerPrev (w : Wheel) (i : ℕ) : ℕ := (w.node i).timerPrev

def wheelBucket (w : Wheel) (i : ℕ) : ℕ := (w.node i).wheelBucket

/-! Writes through the pointer `get_by_index(i)`, and of a bucket's head. -/

def setNext (w : Wheel) (i v : ℕ) : Wheel :=
  { w with node := Function.update w.node i { w.node i with timerNext := v } }

def setPrev (w : Wheel) (i v : ℕ) : Wheel :=
  { w with node := Function.update w.node i { w.node i with timerPrev := v } }

def setWheelBucket (w : Wheel) (i v : ℕ) : Wheel :=
  { w with node := Function.update w.node i { w.node i with wheelBucket := v } }

def setHead (w : Wheel) (b i : ℕ) : Wheel :=
  { w with buckets := Function.update w.buckets b i }

def init : Wheel where
  buckets _ := endOfList
  currentTick := 0
  node _ := {}

def cancel (w : Wheel) (nodeIndex : ℕ) : Wheel :=
  let bucket := w.wheelBucket nodeIndex
  if bucket = endOfList then w
  else
    let w := if w.timerPrev nodeIndex ≠ endOfList then
        w.setNext (w.timerPrev nodeIndex) (w.timerNext nodeIndex)
      else w.setHead bucket (w.timerNext nodeIndex)
    let w := if w.timerNext nodeIndex ≠ endOfList then
        w.setPrev (w.timerNext nodeIndex) (w.timerPrev nodeIndex)
      else w
    w.setWheelBucket nodeIndex endOfList

section Writes
variable (w : Wheel) (b i v : ℕ)

@[simp] theorem setNext_timerNext :
    (w.setNext i v).timerNext = Function.update w.timerNext i v := by
  funext j
  by_cases h : j = i <;> simp [timerNext, setNext, h]

@[simp] theorem setNext_timerPrev : (w.setNext i v).timerPrev = w.timerPrev := by
  funext j
  by_cases h : j = i <;> simp [timerPrev, setNext, h]

@[simp] theorem setNext_wheelBucket : (w.setNext i v).wheelBucket = w.wheelBucket := by
  funext j
  by_cases h : j = i <;> simp [wheelBucket, setNext, h]

@[simp] theorem setPrev_timerNext : (w.setPrev i v).timerNext = w.timerNext := by
  funext j
  by_cases h : j = i <;> simp [timerNext, setPrev, h]

@[simp] theorem setPrev_timerPrev :
    (w.setPrev i v).timerPrev = Function.update w.timerPrev i v := by
  funext j
  by_cases h : j = i <;> simp [timerPrev, setPrev, h]

@[simp] theorem setPrev_wheelBucket : (w.setPrev i v).wheelBucket = w.wheelBucket := by
  funext j
  by_cases h : j = i <;> simp [wheelBucket, setPrev, h]

@[simp] theorem setWheelBucket_timerNext : (w.setWheelBucket i v).timerNext = w.timerNext := by
  funext j
  by_cases h : j = i <;> simp [timerNext, setWheelBucket, h]

@[simp] theorem setWheelBucket_timerPrev : (w.setWheelBucket i v).timerPrev = w.timerPrev := by
  funext j
  by_cases h : j = i <;> simp [timerPrev, setWheelBucket, h]

@[simp] theorem setWheelBucket_wheelBucket :
    (w.setWheelBucket i v).wheelBucket = Function.update w.wheelBucket i v := by
  funext j
  by_cases h : j = i <;> simp [wheelBucket, setWheelBucket, h]

@[simp] theorem setNext_buckets : (w.setNext i v).buckets = w.buckets := rfl

@[simp] theorem setPrev_buckets : (w.setPrev i v).buckets = w.buckets := rfl

@[simp] theorem setWheelBucket_buckets : (w.setWheelBucket i v).buckets = w.buckets := rfl

@[simp] theorem setHead_buckets :
    (w.setHead b i).buckets = Function.update w.buckets b i := rfl

@[simp] theorem setHead_timerNext : (w.setHead b i).timerNext = w.timerNext := rfl

@[simp] theorem setHead_timerPrev : (w.setHead b i).timerPrev = w.timerPrev := rfl

@[simp] theorem setHead_wheelBucket : (w.setHead b i).wheelBucket = w.wheelBucket := rfl

end Writes

end Wheel

namespace WheelConfig
variable (c : WheelConfig)

def slotMask : BitVec 32 := c.slots - 1

/-- `time & SLOT_MASK`, stored in a `uint32_t`. -/
def bucketOf (time : BitVec 64) : ℕ :=
  ((time &&& c.slotMask.setWidth 64).setWidth 32).toNat

def schedule (w : Wheel) (nodeIndex : ℕ) (delayTicks : BitVec 32) : Wheel :=
  let delayTicks := if c.slots ≤ delayTicks then c.slots - 1 else delayTicks
  let bucketIndex := c.bucketOf (w.currentTick + delayTicks.setWidth 64)
  let w := w.setNext nodeIndex (w.buckets bucketIndex)
  let w := w.setPrev nodeIndex endOfList
  let w := w.setWheelBucket nodeIndex bucketIndex
  let w := if w.buckets bucketIndex ≠ endOfList then
      w.setPrev (w.buckets bucketIndex) nodeIndex
    else w
  w.setHead bucketIndex nodeIndex

def tick (w : Wheel) : Wheel × ℕ :=
  let currentTick := w.currentTick + 1
  let currentBucket := c.bucketOf currentTick
  let expiredHead := w.buckets currentBucket
  ({ w with currentTick }.setHead currentBucket endOfList, expiredHead)

end WheelConfig

/-- The core's iteration over an expired list. -/
def walk (next : ℕ → ℕ) : ℕ → ℕ → List ℕ
  | 0, _ => []
  | fuel + 1, i => if i = endOfList then [] else i :: walk next fuel (next i)

/-! ## Runs -/

/-- What the callers know about a node: never scheduled or cancelled since, scheduled and neither
cancelled nor returned, or returned by a tick and not scheduled since. -/
inductive NodeStatus
  | idle
  | waiting
  | expired
  deriving DecidableEq

structure TimerSystem where
  wheel : Wheel
  status : ℕ → NodeStatus

inductive TimerAction
  | schedule (nodeIndex : ℕ) (delayTicks : BitVec 32)
  | cancel (nodeIndex : ℕ)
  | tick

def timerInit : TimerSystem where
  wheel := .init
  status _ := .idle

def timerStep (c : WheelConfig) (s : TimerSystem) : TimerAction → Option (TimerSystem × Event ℕ)
  | .schedule n d =>
    some (⟨c.schedule s.wheel n d, Function.update s.status n .waiting⟩, .scheduled n d.toNat)
  | .cancel n => some (⟨s.wheel.cancel n, Function.update s.status n .idle⟩, .cancelled n)
  | .tick =>
    let (wheel, head) := c.tick s.wheel
    let expired := walk wheel.timerNext endOfList head
    some (⟨wheel, fun n => if n ∈ expired then .expired else s.status n⟩, .ticked expired)

/-- The callers' discipline. A slab's `uint32_t` capacity keeps its indices below `endOfList`. -/
def TimerOk (s : TimerSystem) : TimerAction → Prop
  | .schedule n d => n < endOfList ∧ 1 ≤ d.toNat ∧ s.status n ≠ .waiting
  | .cancel n => n < endOfList ∧ s.status n ≠ .expired
  | .tick => True

instance (s : TimerSystem) (a : TimerAction) : Decidable (TimerOk s a) := by
  cases a <;> unfold TimerOk <;> infer_instance

/-! ## What each operation writes -/

section Operations
variable {c : WheelConfig} {w : Wheel} {n i b : ℕ} {d : BitVec 32}

theorem WheelConfig.slots_dvd (c : WheelConfig) : c.slots.toNat ∣ 2 ^ 64 := by
  obtain ⟨k, hk, he⟩ := exists_two_pow c.slots_pow (by have := c.two_le; omega)
  rw [he]
  exact Nat.pow_dvd_pow 2 (by omega)

theorem WheelConfig.bucketOf_eq (c : WheelConfig) (time : BitVec 64) :
    c.bucketOf time = time.toNat % c.slots.toNat := by
  have hpos : 0 < c.slots.toNat := by have := c.two_le; omega
  have hlt := Nat.mod_lt time.toNat hpos
  have hmask : time.toNat &&& (c.slots - 1).toNat = time.toNat % c.slots.toNat := by
    rw [toNat_pred hpos]
    exact and_pred c.slots_pow hpos time.toNat
  have hw : (time &&& c.slotMask.setWidth 64).toNat = time.toNat % c.slots.toNat := by
    rw [BitVec.toNat_and, BitVec.toNat_setWidth, slotMask,
      Nat.mod_eq_of_lt (by have := (c.slots - 1).isLt; omega), hmask]
  have hslots := c.slots.isLt
  rw [bucketOf, BitVec.toNat_setWidth, hw, Nat.mod_eq_of_lt (by omega)]

/-- The bucket a timer with `r` ticks left is kept in. -/
def WheelConfig.slotAfter (c : WheelConfig) (w : Wheel) (r : ℕ) : ℕ :=
  (w.currentTick.toNat + r) % c.slots.toNat

theorem WheelConfig.bucketOf_add (c : WheelConfig) (time : BitVec 64) (d : BitVec 32) :
    c.bucketOf (time + d.setWidth 64) = (time.toNat + d.toNat) % c.slots.toNat := by
  have hd := d.isLt
  have hwide : (d.setWidth 64).toNat = d.toNat := by
    rw [BitVec.toNat_setWidth, Nat.mod_eq_of_lt (by omega)]
  rw [bucketOf_eq, BitVec.toNat_add, hwide, Nat.mod_mod_of_dvd _ c.slots_dvd]

theorem WheelConfig.capped_toNat (c : WheelConfig) (d : BitVec 32) :
    (if c.slots ≤ d then c.slots - 1 else d).toNat = min d.toNat (c.slots.toNat - 1) := by
  have htwo := c.two_le
  by_cases h : c.slots ≤ d
  · have hle := BitVec.le_def.mp h
    rw [if_pos h, toNat_pred (by omega)]
    omega
  · have hlt : ¬ c.slots.toNat ≤ d.toNat := fun hle => h (BitVec.le_def.mpr hle)
    rw [if_neg h]
    omega

theorem WheelConfig.schedule_bucket (c : WheelConfig) (w : Wheel) (d : BitVec 32) :
    c.bucketOf (w.currentTick + (if c.slots ≤ d then c.slots - 1 else d).setWidth 64) =
      c.slotAfter w (min d.toNat (c.slots.toNat - 1)) := by
  rw [bucketOf_add, capped_toNat, slotAfter]

theorem schedule_buckets (hb : b = c.slotAfter w (min d.toNat (c.slots.toNat - 1))) :
    (c.schedule w n d).buckets = Function.update w.buckets b n := by
  simp only [WheelConfig.schedule, c.schedule_bucket, ← hb]
  split <;> rfl

theorem schedule_currentTick : (c.schedule w n d).currentTick = w.currentTick := by
  simp only [WheelConfig.schedule, c.schedule_bucket]
  split <;> rfl

theorem schedule_timerNext (hb : b = c.slotAfter w (min d.toNat (c.slots.toNat - 1))) :
    (c.schedule w n d).timerNext = Function.update w.timerNext n (w.buckets b) := by
  simp only [WheelConfig.schedule, c.schedule_bucket, ← hb]
  split <;> simp

theorem schedule_timerPrev (hb : b = c.slotAfter w (min d.toNat (c.slots.toNat - 1))) :
    (c.schedule w n d).timerPrev = pushPrev w.timerPrev endOfList (w.buckets b) n := by
  simp only [WheelConfig.schedule, c.schedule_bucket, ← hb, pushPrev]
  by_cases hend : w.buckets b = endOfList <;> simp [hend]

theorem schedule_wheelBucket (hb : b = c.slotAfter w (min d.toNat (c.slots.toNat - 1))) :
    (c.schedule w n d).wheelBucket = Function.update w.wheelBucket n b := by
  simp only [WheelConfig.schedule, c.schedule_bucket, ← hb]
  split <;> simp

theorem cancel_of_unscheduled (h : w.wheelBucket n = endOfList) : w.cancel n = w := by
  simp [Wheel.cancel, h]

theorem cancel_currentTick : (w.cancel n).currentTick = w.currentTick := by
  simp only [Wheel.cancel]
  split
  · rfl
  · split <;> split <;> rfl

theorem cancel_buckets (hb : w.wheelBucket n = b) (hne : b ≠ endOfList) :
    (w.cancel n).buckets =
      if w.timerPrev n = endOfList then Function.update w.buckets b (w.timerNext n)
      else w.buckets := by
  subst hb
  simp only [Wheel.cancel, hne, if_false]
  by_cases hp : w.timerPrev n = endOfList
  · simp only [hp, ne_eq, not_true, if_true, if_false]
    split <;> rfl
  · simp only [hp, ne_eq, not_false_iff, if_true, if_false]
    split <;> rfl

theorem cancel_timerNext (hb : w.wheelBucket n ≠ endOfList) :
    (w.cancel n).timerNext = spliceNext w.timerNext w.timerPrev endOfList n := by
  simp only [Wheel.cancel, hb, if_false, spliceNext]
  by_cases hp : w.timerPrev n = endOfList
  · simp only [hp, ne_eq, not_true, if_true, if_false]
    split <;> simp
  · simp only [hp, ne_eq, not_false_iff, if_true, if_false]
    split <;> simp

/-- The second half of the unlinking reads `timer_next` again, after the first half has written
through `timer_prev`. It is the same, even when the node is its own predecessor. -/
theorem cancel_timerPrev (hb : w.wheelBucket n ≠ endOfList) :
    (w.cancel n).timerPrev = splicePrev w.timerNext w.timerPrev endOfList n := by
  have hsame : Function.update w.timerNext (w.timerPrev n) (w.timerNext n) n = w.timerNext n := by
    by_cases hself : n = w.timerPrev n
    · rw [← hself, Function.update_self]
    · rw [Function.update_of_ne hself]
  simp only [Wheel.cancel, hb, if_false, splicePrev]
  by_cases hp : w.timerPrev n = endOfList
  · by_cases hn : w.timerNext n = endOfList <;> simp [hp, hn]
  · by_cases hn : w.timerNext n = endOfList
    · rw [hn] at hsame
      simp [hp, hn, hsame]
    · simp [hp, hn, hsame]

theorem cancel_wheelBucket (hb : w.wheelBucket n ≠ endOfList) :
    (w.cancel n).wheelBucket = Function.update w.wheelBucket n endOfList := by
  simp only [Wheel.cancel, hb, if_false]
  split <;> split <;> simp

theorem tick_eq (hb : b = c.slotAfter w 1) :
    c.tick w = ({ w with currentTick := w.currentTick + 1 }.setHead b endOfList, w.buckets b) := by
  have hone : c.bucketOf (w.currentTick + 1) = b := by
    rw [hb]
    exact c.bucketOf_add w.currentTick 1#32
  simp only [WheelConfig.tick, hone]

end Operations

end ConduitRuntime.Timing
