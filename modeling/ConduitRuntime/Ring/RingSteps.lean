import ConduitRuntime.Foundations.Refinement
import ConduitRuntime.Ring.SpscFifo
import ConduitRuntime.Ring.SpscRing

/-! One producer thread and one consumer thread on a `spsc_ring_buffer`, one load or store at a
time. With the 32-bit indices read as numbers every step is the conduit's step, so the conduit's
results over every interleaving hold for the masked ring. -/
namespace ConduitRuntime.Ring
open Execution Memory
set_option autoImplicit false

/-- Where the producer is inside `push(item)`. -/
inductive RingProducerPc (A : Type)
  | idle
  | loadWrite (item : Option A)
  | loadRead (item : Option A) (currentWrite : BitVec 32)
  | writeSlot (item : Option A) (currentWrite : BitVec 32)
  | storeWrite (item : Option A) (currentWrite : BitVec 32)

/-- Where the consumer is inside `pop()`. -/
inductive RingConsumerPc (A : Type)
  | idle
  | loadRead
  | loadWrite (currentRead : BitVec 32)
  | readSlot (currentRead : BitVec 32)
  | storeRead (currentRead : BitVec 32) (item : Option A)

structure RingThreads (A : Type) (cap : RingCapacity) where
  buffer : SpscRingBuffer A cap
  producer : RingProducerPc A
  consumer : RingConsumerPc A

namespace SpscRingBuffer
variable {A : Type} {cap : RingCapacity}

def writeSlot (b : SpscRingBuffer A cap) (i : BitVec 32) (item : Option A) : SpscRingBuffer A cap :=
  { b with buffer := Function.update b.buffer i.toNat item }

def storeWrite (b : SpscRingBuffer A cap) (currentWrite : BitVec 32) : SpscRingBuffer A cap :=
  { b with writeIdx := cap.next currentWrite, writeLt := cap.next_lt currentWrite }

def storeRead (b : SpscRingBuffer A cap) (currentRead : BitVec 32) : SpscRingBuffer A cap :=
  { b with readIdx := cap.next currentRead, readLt := cap.next_lt currentRead }

theorem toConduit_storeWrite (b : SpscRingBuffer A cap) (i : BitVec 32) :
    (b.storeWrite i).toConduit = b.toConduit.storeWrite i.toNat := by
  simp [storeWrite, toConduit, Conduit.storeWrite, cap.next_toNat]

theorem toConduit_storeRead (b : SpscRingBuffer A cap) (i : BitVec 32) :
    (b.storeRead i).toConduit = b.toConduit.storeRead i.toNat := by
  simp [storeRead, toConduit, Conduit.storeRead, cap.next_toNat]

end SpscRingBuffer

section Steps
variable {A : Type} {cap : RingCapacity}

def ringProducerStep (s : RingThreads A cap) : Option (RingThreads A cap × SpscEvent A) :=
  match s.producer with
  | .idle => none
  | .loadWrite item => some ({ s with producer := .loadRead item s.buffer.writeIdx }, .silent)
  | .loadRead item currentWrite =>
    if cap.next currentWrite = s.buffer.readIdx then
      some ({ s with producer := .idle }, .pushReturned item false)
    else some ({ s with producer := .writeSlot item currentWrite }, .silent)
  | .writeSlot item currentWrite =>
    some ({ s with buffer := s.buffer.writeSlot currentWrite item,
                   producer := .storeWrite item currentWrite }, .silent)
  | .storeWrite item currentWrite =>
    some ({ s with buffer := s.buffer.storeWrite currentWrite, producer := .idle },
      .pushReturned item true)

def ringConsumerStep (s : RingThreads A cap) : Option (RingThreads A cap × SpscEvent A) :=
  match s.consumer with
  | .idle => none
  | .loadRead => some ({ s with consumer := .loadWrite s.buffer.readIdx }, .silent)
  | .loadWrite currentRead =>
    if currentRead = s.buffer.writeIdx then
      some ({ s with consumer := .idle }, .popReturned none)
    else some ({ s with consumer := .readSlot currentRead }, .silent)
  | .readSlot currentRead =>
    some ({ s with consumer := .storeRead currentRead (s.buffer.buffer currentRead.toNat) },
      .silent)
  | .storeRead currentRead item =>
    some ({ s with buffer := s.buffer.storeRead currentRead, consumer := .idle },
      .popReturned item)

def ringStep (s : RingThreads A cap) : SpscAction A → Option (RingThreads A cap × SpscEvent A)
  | .callPush item =>
    match s.producer with
    | .idle => some ({ s with producer := .loadWrite item }, .silent)
    | _ => none
  | .callPop =>
    match s.consumer with
    | .idle => some ({ s with consumer := .loadRead }, .silent)
    | _ => none
  | .producer => ringProducerStep s
  | .consumer => ringConsumerStep s

def ringInit (A : Type) (cap : RingCapacity) : RingThreads A cap := ⟨.fresh A cap, .idle, .idle⟩

/-! ## The view as a conduit -/

def RingProducerPc.view : RingProducerPc A → ProducerPc A
  | .idle => .idle
  | .loadWrite item => .loadWrite item
  | .loadRead item i => .loadRead item i.toNat
  | .writeSlot item i => .writeSlot item i.toNat
  | .storeWrite item i => .storeWrite item i.toNat

def RingConsumerPc.view : RingConsumerPc A → ConsumerPc A
  | .idle => .idle
  | .loadRead => .loadRead
  | .loadWrite i => .loadWrite i.toNat
  | .readSlot i => .readSlot i.toNat
  | .storeRead i item => .storeRead i.toNat item

def RingThreads.view (s : RingThreads A cap) : Spsc A cap.size :=
  ⟨s.buffer.toConduit, s.producer.view, s.consumer.view⟩

theorem ringProducerStep_view {s u : RingThreads A cap} {e : SpscEvent A}
    (hs : ringProducerStep s = some (u, e)) : producerStep s.view = some (u.view, e) := by
  obtain ⟨b, p, k⟩ := s
  cases p with
  | idle => cases hs
  | loadWrite item =>
    cases hs
    rfl
  | loadRead item i =>
    have hfull : cap.next i = b.readIdx ↔ (i.toNat + 1) % cap.size = b.readIdx.toNat := by
      rw [← cap.next_toNat, BitVec.toNat_inj]
    unfold ringProducerStep at hs
    dsimp only at hs
    split_ifs at hs with h
    · cases hs
      exact if_pos (hfull.mp h)
    · cases hs
      exact if_neg fun h' => h (hfull.mpr h')
  | writeSlot item i =>
    cases hs
    rfl
  | storeWrite item i =>
    cases hs
    simp [producerStep, RingThreads.view, RingProducerPc.view,
      SpscRingBuffer.toConduit_storeWrite]

theorem ringConsumerStep_view {s u : RingThreads A cap} {e : SpscEvent A}
    (hs : ringConsumerStep s = some (u, e)) : consumerStep s.view = some (u.view, e) := by
  obtain ⟨b, p, k⟩ := s
  cases k with
  | idle => cases hs
  | loadRead =>
    cases hs
    rfl
  | loadWrite i =>
    have hempty : i = b.writeIdx ↔ i.toNat = b.writeIdx.toNat := BitVec.toNat_inj.symm
    unfold ringConsumerStep at hs
    dsimp only at hs
    split_ifs at hs with h
    · cases hs
      exact if_pos (hempty.mp h)
    · cases hs
      exact if_neg fun h' => h (hempty.mpr h')
  | readSlot i =>
    cases hs
    rfl
  | storeRead i item =>
    cases hs
    simp [consumerStep, RingThreads.view, RingConsumerPc.view,
      SpscRingBuffer.toConduit_storeRead]

/-- Every step of the masked ring is the conduit's. -/
theorem ringStep_view {s u : RingThreads A cap} {a : SpscAction A} {e : SpscEvent A}
    (hs : ringStep s a = some (u, e)) : spscStep s.view a = some (u.view, e) := by
  obtain ⟨b, p, k⟩ := s
  cases a with
  | callPush item =>
    cases p with
    | idle =>
      cases hs
      rfl
    | _ => cases hs
  | callPop =>
    cases k with
    | idle =>
      cases hs
      rfl
    | _ => cases hs
  | producer => exact ringProducerStep_view hs
  | consumer => exact ringConsumerStep_view hs

end Steps

end ConduitRuntime.Ring
