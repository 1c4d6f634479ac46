import ConduitRuntime.Timing.Wheel
import Mathlib.Data.List.Perm.Subperm

/-! What the buckets of a wheel say: a timer with `r` ticks left is in the list of the bucket the
clock reaches after `r` ticks, and every operation that is used on the right node keeps it so. -/
namespace ConduitRuntime.Timing
open Countdown DoublyLinked LinkChain
set_option autoImplicit false

variable {c : WheelConfig} {w : Wheel} {L : ℕ → List ℕ} {left : ℕ → Option ℕ} {n r b : ℕ}

/-! ## Slots and time -/

theorem WheelConfig.slots_pos (c : WheelConfig) : 0 < c.slots.toNat := by
  have := c.two_le
  omega

theorem WheelConfig.slotAfter_lt (c : WheelConfig) (w : Wheel) (r : ℕ) :
    c.slotAfter w r < endOfList := by
  have hlt := Nat.mod_lt (w.currentTick.toNat + r) c.slots_pos
  have hslots := c.slots.isLt
  unfold slotAfter endOfList
  omega

theorem WheelConfig.slotAfter_congr (c : WheelConfig) {w w' : Wheel}
    (h : w'.currentTick = w.currentTick) (r : ℕ) : c.slotAfter w' r = c.slotAfter w r := by
  rw [slotAfter, h]
  rfl

/-- Within one turn of the wheel, different numbers of ticks lead to different buckets. -/
theorem slotAfter_inj {r' : ℕ} (hr : 0 < r ∧ r ≤ c.slots.toNat) (hr' : 0 < r' ∧ r' ≤ c.slots.toNat)
    (h : c.slotAfter w r = c.slotAfter w r') : r = r' := by
  have hmod : r % c.slots.toNat = r' % c.slots.toNat :=
    Nat.ModEq.add_left_cancel' w.currentTick.toNat h
  rcases Nat.lt_or_eq_of_le hr.2 with hlt | heq <;> rcases Nat.lt_or_eq_of_le hr'.2 with hlt' | heq'
  · rwa [Nat.mod_eq_of_lt hlt, Nat.mod_eq_of_lt hlt'] at hmod
  · rw [Nat.mod_eq_of_lt hlt, heq', Nat.mod_self] at hmod
    omega
  · rw [Nat.mod_eq_of_lt hlt', heq, Nat.mod_self] at hmod
    omega
  · exact heq.trans heq'.symm

/-- The clock may wrap: the number of slots divides its range. -/
theorem slotAfter_tick (r : ℕ) : c.slotAfter (c.tick w).1 r = c.slotAfter w (r + 1) := by
  have hone : (w.currentTick + 1).toNat = (w.currentTick.toNat + 1) % 2 ^ 64 := by
    rw [BitVec.toNat_add]
    rfl
  have hdvd : (w.currentTick.toNat + 1) % 2 ^ 64 % c.slots.toNat =
      (w.currentTick.toNat + 1) % c.slots.toNat := Nat.mod_mod_of_dvd _ c.slots_dvd
  have htick : (c.tick w).1.currentTick = w.currentTick + 1 := rfl
  rw [WheelConfig.slotAfter, WheelConfig.slotAfter, htick, hone, Nat.add_mod, hdvd, ← Nat.add_mod]
  congr 1
  omega

/-! ## Iterating an expired list -/

theorem walk_eq {next : ℕ → ℕ} {h : ℕ} {l : List ℕ} (hl : Chain next endOfList h l) (fuel : ℕ)
    (hfuel : l.length ≤ fuel) : walk next fuel h = l := by
  induction fuel generalizing h l with
  | zero =>
    rw [List.length_eq_zero_iff.mp (by omega : l.length = 0)]
    rfl
  | succ fuel ih =>
    cases hl with
    | nil => simp [walk]
    | cons hne ht =>
      rw [List.length_cons] at hfuel
      rw [walk, if_neg hne, ih ht (by omega)]

theorem length_le_of_nodup_lt {l : List ℕ} (hnodup : l.Nodup) {k : ℕ} (hlt : ∀ n ∈ l, n < k) :
    l.length ≤ k := by
  have hsub : l ⊆ List.range k := fun n hn => List.mem_range.mpr (hlt n hn)
  simpa using (hnodup.subperm hsub).length_le

/-! ## Buckets of which one changes -/

theorem mem_update_cons {b' m : ℕ} :
    m ∈ Function.update L b (n :: L b) b' ↔ m = n ∧ b' = b ∨ m ∈ L b' := by
  by_cases he : b' = b
  · subst he
    simp
  · simp [he]

theorem mem_update_erase (hnodup : (L b).Nodup) (hother : ∀ b', n ∈ L b' → b' = b) {b' m : ℕ} :
    m ∈ Function.update L b ((L b).erase n) b' ↔ m ≠ n ∧ m ∈ L b' := by
  by_cases he : b' = b
  · subst he
    rw [Function.update_self]
    exact hnodup.mem_erase_iff
  · rw [Function.update_of_ne he]
    refine ⟨fun hm => ⟨?_, hm⟩, And.right⟩
    rintro rfl
    exact he (hother b' hm)

theorem mem_update_nil {b' m : ℕ} :
    m ∈ Function.update L b [] b' ↔ b' ≠ b ∧ m ∈ L b' := by
  by_cases he : b' = b <;> simp [he]

/-! ## The wheel and the timers it keeps -/

/-- The lists `L` of the buckets hold exactly the timers of `left`, each in the bucket of the tick
it is due at. -/
structure Kept (c : WheelConfig) (left : ℕ → Option ℕ) (w : Wheel) (L : ℕ → List ℕ) : Prop where
  linked : ∀ b, Linked w.timerNext w.timerPrev endOfList endOfList (w.buckets b) (L b)
  mem : ∀ b n, n ∈ L b ↔ ∃ r, left n = some r ∧ c.slotAfter w r = b
  bucket : ∀ b, ∀ n ∈ L b, w.wheelBucket n = b
  range : ∀ n r, left n = some r → 0 < r ∧ r ≤ c.slots.toNat
  below : ∀ n, left n ≠ none → n < endOfList

namespace Kept

theorem init : Kept c (fun _ => none) .init fun _ => [] where
  linked _ := rfl
  mem b n := by simp
  bucket b n hn := by cases hn
  range n r hr := by cases hr
  below n hn := absurd rfl hn

theorem disjoint (h : Kept c left w L) {b b' : ℕ} (hb : n ∈ L b) (hb' : n ∈ L b') : b = b' :=
  (h.bucket b n hb).symm.trans (h.bucket b' n hb')

theorem notMem (h : Kept c left w L) (hn : left n = none) (b : ℕ) : n ∉ L b := by
  intro hm
  obtain ⟨r, hr, _⟩ := (h.mem b n).mp hm
  rw [hn] at hr
  cases hr

/-- Besides the timer a call is about, all are kept. -/
theorem mem_update (h : Kept c left w L) {v : Option ℕ} {m : ℕ} (hm : m ≠ n) (b : ℕ) :
    (∃ r, Function.update left n v m = some r ∧ c.slotAfter w r = b) ↔ m ∈ L b := by
  rw [Function.update_of_ne hm, h.mem]

/-! ### Schedule -/

theorem schedule_linked (h : Kept c left w L) {d : BitVec 32} (hn : n < endOfList)
    (hfree : left n = none) (hb : b = c.slotAfter w (min d.toNat (c.slots.toNat - 1))) (b' : ℕ) :
    Linked (c.schedule w n d).timerNext (c.schedule w n d).timerPrev endOfList endOfList
      ((c.schedule w n d).buckets b') (Function.update L b (n :: L b) b') := by
  have hnot := h.notMem hfree
  rw [schedule_timerNext hb, schedule_timerPrev hb, schedule_buckets hb]
  by_cases he : b' = b
  · subst he
    rw [Function.update_self, Function.update_self]
    exact (h.linked b').insertHead (hnot b') (by omega)
  · rw [Function.update_of_ne he, Function.update_of_ne he]
    exact (h.linked b).insertHead_frame (h.linked b') (hnot b') fun y hy hy' =>
      he (h.disjoint hy hy')

/-- `r` is any number of ticks after which the clock reaches the bucket `schedule` chooses. -/
theorem schedule (h : Kept c left w L) {d : BitVec 32} (hn : n < endOfList) (hfree : left n = none)
    (hr : 0 < r ∧ r ≤ c.slots.toNat)
    (hslot : c.slotAfter w r = c.slotAfter w (min d.toNat (c.slots.toNat - 1))) :
    ∃ L', Kept c (Function.update left n (some r)) (c.schedule w n d) L' := by
  obtain ⟨b, hb⟩ : ∃ b, b = c.slotAfter w (min d.toNat (c.slots.toNat - 1)) := ⟨_, rfl⟩
  have hnot := h.notMem hfree
  have hclock := c.slotAfter_congr (schedule_currentTick (c := c) (w := w) (n := n) (d := d))
  refine ⟨Function.update L b (n :: L b), h.schedule_linked hn hfree hb, ?_, ?_, ?_, ?_⟩
  · intro b' m
    rw [mem_update_cons]
    simp only [hclock]
    by_cases hm : m = n
    · subst hm
      simp [hnot b', hslot, hb, eq_comm]
    · rw [h.mem_update hm]
      simp [hm]
  · intro b' m hm
    rw [schedule_wheelBucket hb]
    rcases mem_update_cons.mp hm with ⟨rfl, rfl⟩ | hold
    · rw [Function.update_self]
    · rw [Function.update_of_ne (by rintro rfl; exact hnot b' hold)]
      exact h.bucket b' m hold
  · intro m k hk
    by_cases hm : m = n
    · rw [hm, Function.update_self] at hk
      rw [← Option.some.inj hk]
      exact hr
    · rw [Function.update_of_ne hm] at hk
      exact h.range m k hk
  · intro m hm
    by_cases he : m = n
    · rw [he]
      exact hn
    · rw [Function.update_of_ne he] at hm
      exact h.below m hm

/-! ### Cancel -/

theorem cancel_linked (h : Kept c left w L) (hmem : n ∈ L b) (hb : b ≠ endOfList) (b' : ℕ) :
    Linked (w.cancel n).timerNext (w.cancel n).timerPrev endOfList endOfList
      ((w.cancel n).buckets b') (Function.update L b ((L b).erase n) b') := by
  have hbucket := h.bucket b n hmem
  have hbne : w.wheelBucket n ≠ endOfList := hbucket ▸ hb
  rw [cancel_timerNext hbne, cancel_timerPrev hbne, cancel_buckets hbucket hb]
  by_cases he : b' = b
  · subst he
    rw [Function.update_self, ite_apply, Function.update_self]
    exact (h.linked b').splice hmem
  · rw [Function.update_of_ne he, ite_apply, Function.update_of_ne he, ite_self]
    exact (h.linked b).splice_frame (h.linked b') hmem fun y hy hy' => he (h.disjoint hy hy')

theorem bucket_ne (h : Kept c left w L) (hn : left n ≠ none) : w.wheelBucket n ≠ endOfList := by
  obtain ⟨r, hr⟩ := Option.ne_none_iff_exists'.mp hn
  have hlt := c.slotAfter_lt w r
  rw [h.bucket _ n ((h.mem _ n).mpr ⟨r, hr, rfl⟩)]
  omega

theorem cancel (h : Kept c left w L) (hn : left n ≠ none) :
    ∃ L', Kept c (Function.update left n none) (w.cancel n) L' := by
  obtain ⟨r, hr⟩ := Option.ne_none_iff_exists'.mp hn
  obtain ⟨b, hb⟩ : ∃ b, b = c.slotAfter w r := ⟨_, rfl⟩
  have hmem : n ∈ L b := (h.mem b n).mpr ⟨r, hr, hb.symm⟩
  have hbne := h.bucket_ne hn
  have hclock := c.slotAfter_congr (cancel_currentTick (w := w) (n := n))
  have hother : ∀ b' m, m ∈ Function.update L b ((L b).erase n) b' ↔ m ≠ n ∧ m ∈ L b' :=
    fun b' m => mem_update_erase (h.linked b).nodup fun b' hn => h.disjoint hn hmem
  refine ⟨Function.update L b ((L b).erase n),
    h.cancel_linked hmem (h.bucket b n hmem ▸ hbne), ?_, ?_, ?_, ?_⟩
  · intro b' m
    rw [hother]
    simp only [hclock]
    by_cases hm : m = n
    · subst hm
      simp
    · rw [h.mem_update hm]
      simp [hm]
  · intro b' m hm
    obtain ⟨hne, hold⟩ := (hother b' m).mp hm
    rw [cancel_wheelBucket hbne, Function.update_of_ne hne]
    exact h.bucket b' m hold
  · intro m k hk
    by_cases hm : m = n
    · rw [hm, Function.update_self] at hk
      cases hk
    · rw [Function.update_of_ne hm] at hk
      exact h.range m k hk
  · intro m hm
    by_cases he : m = n
    · rw [he, Function.update_self] at hm
      exact absurd rfl hm
    · rw [Function.update_of_ne he] at hm
      exact h.below m hm

/-- What `cancel` writes for a node that is in no bucket but was once. -/
theorem cancel_stale_iff (h : Kept c left w L) (hb : w.wheelBucket n = b) (hbne : b ≠ endOfList) :
    (∀ b', Linked (w.cancel n).timerNext (w.cancel n).timerPrev endOfList endOfList
        ((w.cancel n).buckets b') (L b')) ↔
      (w.timerPrev n = endOfList → w.buckets b = w.timerNext n) ∧
      (left (w.timerPrev n) ≠ none → w.timerNext (w.timerPrev n) = w.timerNext n) ∧
      (left (w.timerNext n) ≠ none → w.timerPrev (w.timerNext n) = w.timerPrev n) := by
  have hbne' : w.wheelBucket n ≠ endOfList := hb ▸ hbne
  have hpending : ∀ m, left m ≠ none ↔ ∃ b', m ∈ L b' := by
    intro m
    rw [Option.ne_none_iff_exists']
    constructor
    · intro ⟨r, hr⟩
      exact ⟨_, (h.mem _ m).mpr ⟨r, hr, rfl⟩⟩
    · intro ⟨b', hm⟩
      obtain ⟨r, hr, _⟩ := (h.mem b' m).mp hm
      exact ⟨r, hr⟩
  have hheads : (∀ b', (w.cancel n).buckets b' = w.buckets b') ↔
      (w.timerPrev n = endOfList → w.buckets b = w.timerNext n) := by
    rw [cancel_buckets hb hbne]
    by_cases hp : w.timerPrev n = endOfList
    · simp only [hp, if_true, forall_true_left]
      constructor
      · intro hall
        rw [← hall b, Function.update_self]
      · intro hhead b'
        rw [← hhead, Function.update_eq_self]
    · simp [hp]
  rw [cancel_timerNext hbne', cancel_timerPrev hbne', hpending, hpending, ← hheads]
  simp only [(h.linked _).splice_stale_iff]
  constructor
  · intro hall
    exact ⟨fun b' => (hall b').1, fun ⟨b', hm⟩ => (hall b').2.1 hm,
      fun ⟨b', hm⟩ => (hall b').2.2 hm⟩
  · intro ⟨hhead, hnext, hprev⟩ b'
    exact ⟨hhead b', fun hm => hnext ⟨b', hm⟩, fun hm => hprev ⟨b', hm⟩⟩

/-- Such a `cancel` keeps the timers if it keeps the lists. -/
theorem cancel_stale (h : Kept c left w L) (hn : left n = none) (hb : w.wheelBucket n ≠ endOfList)
    (hlists : ∀ b, Linked (w.cancel n).timerNext (w.cancel n).timerPrev endOfList endOfList
      ((w.cancel n).buckets b) (L b)) : Kept c left (w.cancel n) L where
  linked := hlists
  mem b m := by
    simp only [c.slotAfter_congr (cancel_currentTick (w := w) (n := n))]
    exact h.mem b m
  bucket b m hm := by
    rw [cancel_wheelBucket hb, Function.update_of_ne (by rintro rfl; exact h.notMem hn b hm)]
    exact h.bucket b m hm
  range := h.range
  below := h.below

/-! ### Tick -/

theorem walk_bucket (h : Kept c left w L) (b : ℕ) :
    walk w.timerNext endOfList (w.buckets b) = L b := by
  refine walk_eq (h.linked b).chain _ (length_le_of_nodup_lt (h.linked b).nodup fun n hn => ?_)
  obtain ⟨r, hr, _⟩ := (h.mem _ n).mp hn
  exact h.below n (by simp [hr])

theorem expired_eq (h : Kept c left w L) :
    walk (c.tick w).1.timerNext endOfList (c.tick w).2 = L (c.slotAfter w 1) := by
  rw [tick_eq rfl]
  exact h.walk_bucket _

theorem mem_expired (h : Kept c left w L) (n : ℕ) :
    n ∈ L (c.slotAfter w 1) ↔ left n = some 1 := by
  rw [h.mem]
  constructor
  · rintro ⟨r, hr, hslot⟩
    rw [hr, slotAfter_inj (h.range n r hr) ⟨Nat.one_pos, c.slots_pos⟩ hslot]
  · intro hr
    exact ⟨1, hr, rfl⟩

/-- Every timer but those with one tick left has one tick less, in the bucket it was in. -/
theorem tick (h : Kept c left w L) (horizon : ℕ) (expired : List ℕ) :
    ∃ L', Kept c (after horizon left (.ticked expired)) (c.tick w).1 L' := by
  obtain ⟨b, hb⟩ : ∃ b, b = c.slotAfter w 1 := ⟨_, rfl⟩
  have hleft : ∀ n r, after horizon left (.ticked expired) n = some r ↔
      0 < r ∧ left n = some (r + 1) := fun n r => after_ticked_iff left expired n r
  refine ⟨Function.update L b [], ?_, ?_, ?_, ?_, ?_⟩
  · intro b'
    rw [tick_eq hb]
    by_cases he : b' = b
    · subst he
      rw [Function.update_self]
      exact Function.update_self ..
    · rw [Function.update_of_ne he]
      simp only [Wheel.setHead_buckets, Function.update_of_ne he]
      exact h.linked b'
  · intro b' n
    simp only [mem_update_nil, hleft, slotAfter_tick, h.mem]
    constructor
    · rintro ⟨hne, r, hr, hslot⟩
      have hpos := (h.range n r hr).1
      have hr1 : r ≠ 1 := by
        rintro rfl
        exact hne (hslot.symm.trans hb.symm)
      obtain ⟨k, rfl⟩ : ∃ k, r = k + 1 := ⟨r - 1, by omega⟩
      exact ⟨k, ⟨by omega, hr⟩, hslot⟩
    · rintro ⟨r, ⟨hpos, hr⟩, hslot⟩
      refine ⟨?_, r + 1, hr, hslot⟩
      rintro rfl
      have := slotAfter_inj (h.range n (r + 1) hr) ⟨Nat.one_pos, c.slots_pos⟩ (hslot.trans hb)
      omega
  · intro b' n hn
    exact h.bucket b' n (mem_update_nil.mp hn).2
  · intro n r hr
    obtain ⟨hpos, hold⟩ := (hleft n r).mp hr
    have := (h.range n (r + 1) hold).2
    exact ⟨hpos, by omega⟩
  · intro n hn
    obtain ⟨r, hr⟩ := Option.ne_none_iff_exists'.mp hn
    exact h.below n (by simp [((hleft n r).mp hr).2])

end Kept

/-! ## What the wheel would return -/

/-- The list of the bucket that the clock reaches after `r` more ticks, at most one turn of the
wheel, has the node `n`. -/
def Due (c : WheelConfig) (w : Wheel) (n r : ℕ) : Prop :=
  0 < r ∧ r ≤ c.slots.toNat ∧ n ∈ walk w.timerNext endOfList (w.buckets (c.slotAfter w r))

instance (c : WheelConfig) (w : Wheel) (n r : ℕ) : Decidable (Due c w n r) :=
  inferInstanceAs (Decidable (_ ∧ _ ∧ _))

theorem Kept.due_iff (h : Kept c left w L) (n r : ℕ) : Due c w n r ↔ left n = some r := by
  rw [Due, h.walk_bucket, h.mem]
  constructor
  · rintro ⟨hpos, hle, k, hk, hslot⟩
    rw [hk, slotAfter_inj (h.range n k hk) ⟨hpos, hle⟩ hslot]
  · intro hr
    obtain ⟨hpos, hle⟩ := h.range n r hr
    exact ⟨hpos, hle, r, hr, rfl⟩

/-- Every tick of the trace returned exactly the nodes with one tick left, each once. -/
def ReturnsDue (leftAt : List (Event ℕ) → ℕ → Option ℕ) (es : List (Event ℕ)) : Prop :=
  ∀ pre expired post, es = pre ++ .ticked expired :: post →
    expired.Nodup ∧ ∀ n, n ∈ expired ↔ leftAt pre n = some 1

theorem returnsDue_snoc {leftAt : List (Event ℕ) → ℕ → Option ℕ} {es : List (Event ℕ)}
    (h : ReturnsDue leftAt es) {e : Event ℕ}
    (he : ∀ expired, e = .ticked expired →
      expired.Nodup ∧ ∀ n, n ∈ expired ↔ leftAt es n = some 1) : ReturnsDue leftAt (es ++ [e]) := by
  intro pre expired post heq
  rcases List.eq_nil_or_concat post with rfl | ⟨post, e', rfl⟩
  · obtain ⟨rfl, hlast⟩ := List.append_inj' heq rfl
    exact he expired (by simpa using hlast)
  · have heq' : es ++ [e] = (pre ++ .ticked expired :: post) ++ [e'] := by simpa using heq
    exact h pre expired post (List.append_inj' heq' rfl).1

end ConduitRuntime.Timing
