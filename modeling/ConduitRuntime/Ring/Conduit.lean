import ConduitRuntime.Foundations.CyclicWindow
import ConduitRuntime.Memory.EventPtr

/-! `conduit<T, Size>` and its two calls, each run without interruption. The indices carry their
bound, so every conduit that can be built has a positive size and indexes inside its array. One
slot always stays free: a conduit of size `Size` holds at most `Size - 1` pointers. -/
namespace ConduitRuntime.Ring
open CyclicWindow Memory
set_option autoImplicit false

/-- `ring_`, `write_idx_` and `read_idx_`. A slot outside the occupied window holds whatever was
there before; `none` is the null pointer. -/
structure Conduit (A : Type) (size : ℕ) where
  ring : ℕ → Option A
  writeIdx : ℕ
  readIdx : ℕ
  writeLt : writeIdx < size
  readLt : readIdx < size

namespace Conduit
variable {A C : Type} {size : ℕ}

/-- A conduit as constructed: both indices zero, the array uninitialised. -/
def fresh (hsize : 0 < size) (ring : ℕ → Option A) : Conduit A size := ⟨ring, 0, 0, hsize, hsize⟩

theorem size_pos (c : Conduit A size) : 0 < size := Nat.zero_lt_of_lt c.writeLt

/-! ## Single memory operations -/

/-- `ring_[current_write] = ptr`. -/
def writeSlot (c : Conduit A size) (currentWrite : ℕ) (ptr : Option A) : Conduit A size :=
  { c with ring := Function.update c.ring currentWrite ptr }

/-- `write_idx_.store((current_write + 1) % Size)`. -/
def storeWrite (c : Conduit A size) (currentWrite : ℕ) : Conduit A size :=
  { c with writeIdx := (currentWrite + 1) % size, writeLt := Nat.mod_lt _ c.size_pos }

/-- `read_idx_.store((current_read + 1) % Size)`. -/
def storeRead (c : Conduit A size) (currentRead : ℕ) : Conduit A size :=
  { c with readIdx := (currentRead + 1) % size, readLt := Nat.mod_lt _ c.size_pos }

/-! ## Whole calls -/

def push (c : Conduit A size) (ptr : Option A) : Conduit A size × Bool :=
  let currentWrite := c.writeIdx
  let nextWrite := (currentWrite + 1) % size
  if nextWrite = c.readIdx then (c, false)
  else ((c.writeSlot currentWrite ptr).storeWrite currentWrite, true)

def pop (c : Conduit A size) (p : C) : Conduit A size × EventPtr A C :=
  let currentRead := c.readIdx
  if currentRead = c.writeIdx then (c, .null)
  else (c.storeRead currentRead, ⟨c.ring currentRead, some .releaseToPool, some p⟩)

/-! ## Contents -/

def count (c : Conduit A size) : ℕ := occupied size c.readIdx c.writeIdx

/-- The pointers between `read_idx_` and `write_idx_`, oldest first. -/
def contents (c : Conduit A size) : List (Option A) := window c.ring size c.readIdx c.count

@[simp] theorem contents_length (c : Conduit A size) : c.contents.length = c.count := window_length

@[simp] theorem contents_fresh (hsize : 0 < size) (ring : ℕ → Option A) :
    (fresh hsize ring).contents = [] := by
  simp [contents, count, fresh, occupied]

theorem count_lt (c : Conduit A size) : c.count < size := occupied_lt c.size_pos

theorem full_iff (c : Conduit A size) :
    (c.writeIdx + 1) % size = c.readIdx ↔ c.contents.length + 1 = size := by
  rw [contents_length]
  exact advance_eq_read_iff c.readLt c.writeLt

theorem empty_iff (c : Conduit A size) : c.readIdx = c.writeIdx ↔ c.contents = [] := by
  rw [← List.length_eq_zero_iff, contents_length]
  exact (occupied_eq_zero_iff c.readLt c.writeLt).symm

/-- The write slot lies outside the window, so filling it changes no pointer held. -/
theorem contents_writeSlot (c : Conduit A size) (ptr : Option A) :
    (c.writeSlot c.writeIdx ptr).contents = c.contents := by
  have hslot := add_occupied_mod c.readLt c.writeLt
  have hw := window_update (f := c.ring) (r := c.readIdx) ptr (le_refl c.count) c.count_lt
  unfold count at hw
  rw [hslot] at hw
  exact hw

/-- Publishing the write index adds the slot's pointer at the back. -/
theorem contents_storeWrite (c : Conduit A size) (h : (c.writeIdx + 1) % size ≠ c.readIdx) :
    (c.storeWrite c.writeIdx).contents = c.contents ++ [c.ring c.writeIdx] := by
  have hcount : (c.storeWrite c.writeIdx).count = c.count + 1 :=
    occupied_advance_write c.readLt c.writeLt h
  have hslot := add_occupied_mod c.readLt c.writeLt
  unfold contents
  rw [hcount]
  change window c.ring size c.readIdx (c.count + 1) = _
  rw [window_succ_back]
  unfold count
  rw [hslot]

/-- Publishing the read index drops the front pointer. -/
theorem contents_storeRead (c : Conduit A size) (h : c.readIdx ≠ c.writeIdx) :
    c.contents = c.ring c.readIdx :: (c.storeRead c.readIdx).contents := by
  have hcount : (c.storeRead c.readIdx).count + 1 = c.count :=
    occupied_advance_read c.readLt c.writeLt h
  unfold contents
  rw [← hcount, window_succ_front c.readLt]
  rfl

/-! ## What a call does to the contents -/

theorem push_of_full (c : Conduit A size) (ptr : Option A) (h : c.contents.length + 1 = size) :
    c.push ptr = (c, false) := by
  simp [push, c.full_iff.mpr h]

theorem push_of_room (c : Conduit A size) (ptr : Option A) (h : c.contents.length + 1 ≠ size) :
    (c.push ptr).2 = true ∧ (c.push ptr).1.contents = c.contents ++ [ptr] := by
  have hne : (c.writeIdx + 1) % size ≠ c.readIdx := fun he => h (c.full_iff.mp he)
  simp only [push, hne, if_false, true_and]
  have hs := contents_storeWrite (c.writeSlot c.writeIdx ptr) hne
  rw [contents_writeSlot] at hs
  rw [show (c.writeSlot c.writeIdx ptr).storeWrite c.writeIdx =
    (c.writeSlot c.writeIdx ptr).storeWrite (c.writeSlot c.writeIdx ptr).writeIdx from rfl, hs]
  simp [writeSlot]

theorem pop_of_empty (c : Conduit A size) (p : C) (h : c.contents = []) :
    c.pop p = (c, .null) := by
  simp [pop, c.empty_iff.mpr h]

theorem pop_of_cons (c : Conduit A size) (p : C) {x : Option A} {xs : List (Option A)}
    (h : c.contents = x :: xs) :
    (c.pop p).2 = ⟨x, some .releaseToPool, some p⟩ ∧ (c.pop p).1.contents = xs := by
  have hne : c.readIdx ≠ c.writeIdx := by
    intro he
    rw [c.empty_iff.mp he] at h
    cases h
  have hfront := contents_storeRead c hne
  rw [h] at hfront
  obtain ⟨hx, hxs⟩ := List.cons.inj hfront
  simp only [pop, hne, if_false]
  exact ⟨by rw [hx], hxs.symm⟩

/-- What `pop` does whatever the contents: it takes the front pointer, or finds none. -/
theorem pop_ptr (c : Conduit A size) (p : C) : (c.pop p).2.ptr = c.contents.head?.join := by
  cases h : c.contents with
  | nil =>
    rw [c.pop_of_empty p h]
    rfl
  | cons x xs =>
    rw [(c.pop_of_cons p h).1]
    rfl

theorem pop_contents (c : Conduit A size) (p : C) : (c.pop p).1.contents = c.contents.tail := by
  cases h : c.contents with
  | nil =>
    rw [c.pop_of_empty p h, h]
    rfl
  | cons x xs => exact (c.pop_of_cons p h).2

/-! ## Which slot holds which pointer -/

/-- Slot `j` lies in the window from `read_idx_` to `write_idx_` and holds the pointer `a`. -/
def HoldsAt (c : Conduit A size) (j : ℕ) (a : A) : Prop :=
  (∃ k < c.count, (c.readIdx + k) % size = j) ∧ c.ring j = some a

theorem mem_contents_iff (c : Conduit A size) (a : A) :
    some a ∈ c.contents ↔ ∃ j, c.HoldsAt j a := by
  unfold contents
  rw [mem_window_iff]
  constructor
  · rintro ⟨k, hk, he⟩
    exact ⟨_, ⟨k, hk, rfl⟩, he⟩
  · rintro ⟨j, ⟨k, hk, rfl⟩, he⟩
    exact ⟨k, hk, he⟩

theorem not_holdsAt_of_empty {c : Conduit A size} (h : c.contents = []) (j : ℕ) (a : A) :
    ¬ c.HoldsAt j a := by
  intro hj
  have hm := (c.mem_contents_iff a).mpr ⟨j, hj⟩
  rw [h] at hm
  cases hm

theorem not_holdsAt_write (c : Conduit A size) (a : A) : ¬ c.HoldsAt c.writeIdx a := by
  rintro ⟨⟨k, hk, he⟩, _⟩
  have hw := add_occupied_mod c.readLt c.writeLt
  have hlt := c.count_lt
  have hkc : k = c.count := slot_injective (by omega) hlt (he.trans hw.symm)
  omega

theorem push_eq_of_room (c : Conduit A size) (ptr : Option A) (h : c.contents.length + 1 ≠ size) :
    c.push ptr = ((c.writeSlot c.writeIdx ptr).storeWrite c.writeIdx, true) := by
  have hne : (c.writeIdx + 1) % size ≠ c.readIdx := fun he => h (c.full_iff.mp he)
  simp [push, hne]

theorem count_push (c : Conduit A size) (ptr : Option A) (h : c.contents.length + 1 ≠ size) :
    (c.push ptr).1.count = c.count + 1 := by
  have hc := congrArg List.length (c.push_of_room ptr h).2
  simpa using hc

theorem holdsAt_push_write (c : Conduit A size) (ptr : Option A) (h : c.contents.length + 1 ≠ size)
    (a : A) : (c.push ptr).1.HoldsAt c.writeIdx a ↔ ptr = some a := by
  have hcount := c.count_push ptr h
  have hw := add_occupied_mod c.readLt c.writeLt
  rw [c.push_eq_of_room ptr h] at hcount ⊢
  constructor
  · rintro ⟨_, he⟩
    simpa [storeWrite, writeSlot] using he
  · intro he
    refine ⟨⟨c.count, by omega, hw⟩, ?_⟩
    simpa [storeWrite, writeSlot] using he

theorem holdsAt_push_ne (c : Conduit A size) (ptr : Option A) (h : c.contents.length + 1 ≠ size)
    {j : ℕ} (hj : j ≠ c.writeIdx) (a : A) : (c.push ptr).1.HoldsAt j a ↔ c.HoldsAt j a := by
  have hcount := c.count_push ptr h
  have hw := add_occupied_mod c.readLt c.writeLt
  rw [c.push_eq_of_room ptr h] at hcount ⊢
  have hring : ((c.writeSlot c.writeIdx ptr).storeWrite c.writeIdx).ring j = c.ring j := by
    simp [storeWrite, writeSlot, hj]
  unfold HoldsAt
  rw [hcount, hring]
  refine and_congr_left fun _ => ⟨?_, ?_⟩
  · rintro ⟨k, hk, he⟩
    have hne : k ≠ c.count := by
      rintro rfl
      exact hj (he.symm.trans hw)
    exact ⟨k, by omega, he⟩
  · rintro ⟨k, hk, he⟩
    exact ⟨k, by omega, he⟩

theorem pop_eq_of_ne (c : Conduit A size) (p : C) (h : c.contents ≠ []) :
    c.pop p = (c.storeRead c.readIdx, ⟨c.ring c.readIdx, some .releaseToPool, some p⟩) := by
  have hne : c.readIdx ≠ c.writeIdx := fun he => h (c.empty_iff.mp he)
  simp [pop, hne]

theorem holdsAt_read (c : Conduit A size) (h : c.contents ≠ []) (a : A) :
    c.HoldsAt c.readIdx a ↔ c.ring c.readIdx = some a := by
  have hpos : 0 < c.count := by
    rw [← c.contents_length]
    exact List.length_pos_iff.mpr h
  exact and_iff_right ⟨0, hpos, Nat.mod_eq_of_lt c.readLt⟩

/-- After a pop the slots in use are the old ones but for the read slot. -/
theorem holdsAt_storeRead (c : Conduit A size) (h : c.contents ≠ []) (j : ℕ) (a : A) :
    (c.storeRead c.readIdx).HoldsAt j a ↔ j ≠ c.readIdx ∧ c.HoldsAt j a := by
  have hne : c.readIdx ≠ c.writeIdx := fun he => h (c.empty_iff.mp he)
  have hcount : (c.storeRead c.readIdx).count + 1 = c.count :=
    occupied_advance_read c.readLt c.writeLt hne
  have hlt := c.count_lt
  have hslot : ∀ k, ((c.storeRead c.readIdx).readIdx + k) % size =
      (c.readIdx + (k + 1)) % size := by
    intro k
    simp only [storeRead, Nat.mod_add_mod]
    congr 1
    omega
  constructor
  · rintro ⟨⟨k, hk, rfl⟩, he⟩
    rw [hslot] at he ⊢
    refine ⟨fun hr => ?_, ⟨k + 1, by omega, rfl⟩, he⟩
    have h0 : (c.readIdx + (k + 1)) % size = (c.readIdx + 0) % size := by
      rw [hr, Nat.add_zero, Nat.mod_eq_of_lt c.readLt]
    have := slot_injective (by omega) (by omega) h0
    omega
  · rintro ⟨hj, ⟨k, hk, rfl⟩, he⟩
    obtain ⟨k, rfl⟩ : ∃ m, k = m + 1 := by
      refine ⟨k - 1, ?_⟩
      have : k ≠ 0 := by
        rintro rfl
        rw [Nat.add_zero, Nat.mod_eq_of_lt c.readLt] at hj
        exact hj rfl
      omega
    exact ⟨⟨k, by omega, hslot k⟩, he⟩

/-! ## Pointers seen as something else -/

section Map
variable {B : Type} (f : A → B)

/-- The conduit with `f` of every pointer. -/
def map (c : Conduit A size) : Conduit B size :=
  ⟨fun k => (c.ring k).map f, c.writeIdx, c.readIdx, c.writeLt, c.readLt⟩

theorem push_map (c : Conduit A size) (ptr : Option A) :
    (c.map f).push (ptr.map f) = ((c.push ptr).1.map f, (c.push ptr).2) := by
  have hwrite : (c.map f).writeSlot c.writeIdx (ptr.map f) =
      (c.writeSlot c.writeIdx ptr).map f := by
    simp only [map, writeSlot, Conduit.mk.injEq, and_self, and_true]
    exact (Function.comp_update (Option.map f) c.ring c.writeIdx ptr).symm
  by_cases hfull : (c.writeIdx + 1) % size = c.readIdx
  · rw [show (c.map f).push (ptr.map f) = (c.map f, false) from if_pos hfull,
      show c.push ptr = (c, false) from if_pos hfull]
  · rw [show c.push ptr = ((c.writeSlot c.writeIdx ptr).storeWrite c.writeIdx, true) from
      if_neg hfull]
    exact (if_neg hfull).trans (congrArg (fun d => (storeWrite d c.writeIdx, true)) hwrite)

theorem pop_map (c : Conduit A size) (p : C) :
    (c.map f).pop p = ((c.pop p).1.map f, (c.pop p).2.map f) := by
  by_cases hempty : c.readIdx = c.writeIdx
  · rw [show (c.map f).pop p = (c.map f, .null) from if_pos hempty,
      show c.pop p = (c, .null) from if_pos hempty]
    rfl
  · rw [show c.pop p = (c.storeRead c.readIdx,
      ⟨c.ring c.readIdx, some .releaseToPool, some p⟩) from if_neg hempty]
    exact if_neg hempty

end Map

end Conduit

end ConduitRuntime.Ring
