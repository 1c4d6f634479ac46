import ConduitRuntime.Foundations.MaskedIndex
import ConduitRuntime.Foundations.Simulation
import ConduitRuntime.Ring.Conduit

/-! `spsc_ring_buffer<T, Capacity>`, the ring with 32-bit indices wrapped by a mask, against
`conduit<T, Capacity>`, whose indices are reduced with `%`. With the index read as a number the
masked ring is a conduit, and what a conduit answers depends on its contents alone. -/
namespace ConduitRuntime.Ring
open MaskedIndex Memory Simulation
set_option autoImplicit false

/-- `Capacity` with its `static_assert`. -/
structure RingCapacity where
  value : BitVec 32
  ne_zero : value ≠ 0
  pow : value &&& (value - 1) = 0

namespace RingCapacity

def size (cap : RingCapacity) : ℕ := cap.value.toNat

theorem size_pos (cap : RingCapacity) : 0 < cap.size := by
  refine Nat.pos_of_ne_zero fun hzero => cap.ne_zero ?_
  exact BitVec.eq_of_toNat_eq hzero

/-- The powers of two up to `2 ^ 31`, all of them. -/
theorem size_eq_two_pow (cap : RingCapacity) : ∃ k ≤ 31, cap.size = 2 ^ k := by
  obtain ⟨k, hk, hsize⟩ := exists_two_pow cap.pow cap.size_pos
  exact ⟨k, by omega, hsize⟩

theorem exists_size {k : ℕ} (hk : k ≤ 31) : ∃ cap : RingCapacity, cap.size = 2 ^ k := by
  have hpow : ∀ i : Fin 32, BitVec.twoPow 32 i ≠ 0 ∧
      BitVec.twoPow 32 i &&& (BitVec.twoPow 32 i - 1) = 0 := by decide
  obtain ⟨hne, hand⟩ := hpow ⟨k, by omega⟩
  refine ⟨⟨BitVec.twoPow 32 k, hne, hand⟩, ?_⟩
  exact BitVec.toNat_twoPow_of_lt (by omega)

/-- `(i + 1) & (Capacity - 1)`. -/
def next (cap : RingCapacity) (i : BitVec 32) : BitVec 32 := (i + 1) &&& (cap.value - 1)

theorem next_toNat (cap : RingCapacity) (i : BitVec 32) :
    (cap.next i).toNat = (i.toNat + 1) % cap.size := by
  have hsucc : i + 1 = BitVec.ofNat 32 (i.toNat + 1) := by
    rw [BitVec.ofNat_add, BitVec.ofNat_toNat, BitVec.setWidth_eq]
    rfl
  rw [next, hsucc]
  exact mask_ofNat cap.pow cap.size_pos _

theorem next_lt (cap : RingCapacity) (i : BitVec 32) : (cap.next i).toNat < cap.size := by
  rw [next_toNat]
  exact Nat.mod_lt _ cap.size_pos

end RingCapacity

/-- `buffer_`, `write_idx_` and `read_idx_`; `none` is the null pointer. -/
structure SpscRingBuffer (A : Type) (cap : RingCapacity) where
  buffer : ℕ → Option A
  writeIdx : BitVec 32
  readIdx : BitVec 32
  writeLt : writeIdx.toNat < cap.size
  readLt : readIdx.toNat < cap.size

namespace SpscRingBuffer
variable {A : Type} {cap : RingCapacity}

/-- As constructed, with `buffer_{nullptr}`. -/
def fresh (A : Type) (cap : RingCapacity) : SpscRingBuffer A cap :=
  ⟨fun _ => none, 0, 0, cap.size_pos, cap.size_pos⟩

def push (b : SpscRingBuffer A cap) (item : Option A) : SpscRingBuffer A cap × Bool :=
  let currentWrite := b.writeIdx
  let nextWrite := cap.next currentWrite
  if nextWrite = b.readIdx then (b, false)
  else
    ({ b with
        buffer := Function.update b.buffer currentWrite.toNat item
        writeIdx := nextWrite
        writeLt := cap.next_lt currentWrite }, true)

def pop (b : SpscRingBuffer A cap) : SpscRingBuffer A cap × Option A :=
  let currentRead := b.readIdx
  if currentRead = b.writeIdx then (b, none)
  else
    ({ b with readIdx := cap.next currentRead, readLt := cap.next_lt currentRead },
      b.buffer currentRead.toNat)

/-! ## The masked ring as a conduit -/

def toConduit (b : SpscRingBuffer A cap) : Conduit A cap.size :=
  ⟨b.buffer, b.writeIdx.toNat, b.readIdx.toNat, b.writeLt, b.readLt⟩

theorem toConduit_push (b : SpscRingBuffer A cap) (item : Option A) :
    ((b.push item).1.toConduit, (b.push item).2) = b.toConduit.push item := by
  have hfull : cap.next b.writeIdx = b.readIdx ↔
      (b.writeIdx.toNat + 1) % cap.size = b.readIdx.toNat := by
    rw [← cap.next_toNat, BitVec.toNat_inj]
  by_cases h : cap.next b.writeIdx = b.readIdx
  · simp [push, Conduit.push, toConduit, h, hfull.mp h]
  · have h' := mt hfull.mpr h
    simp [push, Conduit.push, Conduit.writeSlot, Conduit.storeWrite, toConduit, h, h',
      cap.next_toNat]

theorem toConduit_pop (b : SpscRingBuffer A cap) :
    ((b.pop).1.toConduit, (b.pop).2) =
      ((b.toConduit.pop ()).1, (b.toConduit.pop ()).2.ptr) := by
  have hempty : b.readIdx = b.writeIdx ↔ b.readIdx.toNat = b.writeIdx.toNat :=
    BitVec.toNat_inj.symm
  by_cases h : b.readIdx = b.writeIdx
  · simp [pop, Conduit.pop, toConduit, h, EventPtr.null]
  · have h' := mt hempty.mpr h
    simp [pop, Conduit.pop, Conduit.storeRead, toConduit, h, h', cap.next_toNat]

end SpscRingBuffer

/-! ## The same calls on both -/

inductive RingCall (A : Type)
  | push (item : Option A)
  | pop

inductive RingAnswer (A : Type)
  | pushed (accepted : Bool)
  | popped (item : Option A)
  deriving DecidableEq

section Calls
variable {A : Type} {size : ℕ} {cap : RingCapacity}

def conduitCall (c : Conduit A size) : RingCall A → Conduit A size × RingAnswer A
  | .push item => ((c.push item).1, .pushed (c.push item).2)
  | .pop => ((c.pop ()).1, .popped (c.pop ()).2.ptr)

def spscCall (b : SpscRingBuffer A cap) : RingCall A → SpscRingBuffer A cap × RingAnswer A
  | .push item => ((b.push item).1, .pushed (b.push item).2)
  | .pop => ((b.pop).1, .popped (b.pop).2)

/-- The masked ring answers as the conduit it is. -/
theorem toConduit_bisimulates :
    Bisimulates spscCall conduitCall
      fun (b : SpscRingBuffer A cap) (c : Conduit A cap.size) => b.toConduit = c where
  answer b c a hbc := by
    subst hbc
    cases a with
    | push item => exact congrArg (fun r => RingAnswer.pushed r.2) (b.toConduit_push item)
    | pop => exact congrArg (fun r => RingAnswer.popped r.2) b.toConduit_pop
  related b c a hbc := by
    subst hbc
    cases a with
    | push item => exact congrArg Prod.fst (b.toConduit_push item)
    | pop => exact congrArg Prod.fst b.toConduit_pop

/-- Conduits with the same contents cannot be told apart, wherever their indices stand and whatever
is in their other slots. -/
theorem contents_bisimulates :
    Bisimulates conduitCall conduitCall
      fun (c c' : Conduit A size) => c.contents = c'.contents where
  answer c c' a hcc := by
    cases a with
    | push item =>
      by_cases hfull : c.contents.length + 1 = size
      · simp only [conduitCall, c.push_of_full item hfull, c'.push_of_full item (hcc ▸ hfull)]
      · simp only [conduitCall, (c.push_of_room item hfull).1,
          (c'.push_of_room item (hcc ▸ hfull)).1]
    | pop => simp only [conduitCall, Conduit.pop_ptr, hcc]
  related c c' a hcc := by
    cases a with
    | push item =>
      by_cases hfull : c.contents.length + 1 = size
      · simp only [conduitCall, c.push_of_full item hfull, c'.push_of_full item (hcc ▸ hfull)]
        exact hcc
      · simp only [conduitCall, (c.push_of_room item hfull).2,
          (c'.push_of_room item (hcc ▸ hfull)).2, hcc]
    | pop => simp only [conduitCall, Conduit.pop_contents, hcc]

/-- Every sequence of calls gets the same answers from both rings, from their construction on; the
conduit's array starts with arbitrary contents. -/
theorem rings_agree (cap : RingCapacity) (ring : ℕ → Option A) (ops : List (RingCall A)) :
    (calls spscCall (.fresh A cap) ops).2 =
      (calls conduitCall (Conduit.fresh cap.size_pos ring) ops).2 := by
  have hmask := (toConduit_bisimulates.calls (s := .fresh A cap) rfl ops).1
  have hstart : (SpscRingBuffer.fresh A cap).toConduit.contents =
      (Conduit.fresh cap.size_pos ring).contents := by
    rw [Conduit.contents_fresh]
    exact Conduit.contents_fresh cap.size_pos _
  exact hmask.trans (contents_bisimulates.calls hstart ops).1

end Calls

end ConduitRuntime.Ring
