import ConduitRuntime.Memory.Slab
import ConduitRuntime.Ring.RingSteps

/-! `load_generator`: it takes its events from a slab, fires them into a ring while a consumer pops,
and gives all of them back when it is destroyed. -/
namespace ConduitRuntime.Supplemental
open Execution ConduitRuntime.Ring Memory
set_option autoImplicit false

/-! ## Arming and destruction -/

/-- The loop of `arm_weapon`: the pool, the magazine, and whether it ended with the exception. Of an
event only `size_bytes` matters. -/
def armWeapon (eventSize : ℕ) : ℕ → Slab ℕ → Slab ℕ × List ℕ × Bool
  | 0, pool => (pool, [], false)
  | n + 1, pool =>
    match pool.allocate 0 with
    | (pool, none) => (pool, [], true)
    | (pool, some ev) =>
      let r := armWeapon eventSize n (pool.writePayload ev eventSize)
      (r.1, ev :: r.2.1, r.2.2)

/-- The destructor. -/
def returnAmmo (pool : Slab ℕ) (ammo : List ℕ) : Slab ℕ :=
  ammo.foldl (fun pool ev => pool.deallocate (some ev)) pool

section Arming
variable {capacity : ℕ}

/-- The magazine is the beginning of the free list; it is complete unless the list is too short. -/
theorem armWeapon_spec (eventSize : ℕ) {pool : Slab ℕ} {l : List ℕ}
    (h : Slab.FreeList capacity pool l) (n : ℕ) :
    (armWeapon eventSize n pool).2 = (l.take n, decide (l.length < n)) ∧
      Slab.FreeList capacity (armWeapon eventSize n pool).1 (l.drop n) := by
  induction n generalizing pool l with
  | zero => exact ⟨by simp [armWeapon], h⟩
  | succ n ih =>
    cases l with
    | nil =>
      have hnone := Slab.allocate_of_nil 0 h
      simp only [armWeapon, hnone]
      exact ⟨by simp, h⟩
    | cons i l =>
      obtain ⟨hanswer, hrest⟩ := Slab.allocate_of_cons 0 h
      obtain ⟨hmagazine, hfree⟩ := ih (Slab.writePayload_freeList hrest i eventSize)
      have hstep : armWeapon eventSize (n + 1) pool =
          ((armWeapon eventSize n ((pool.allocate 0).1.writePayload i eventSize)).1,
            i :: (armWeapon eventSize n ((pool.allocate 0).1.writePayload i eventSize)).2.1,
            (armWeapon eventSize n ((pool.allocate 0).1.writePayload i eventSize)).2.2) := by
        rw [armWeapon]
        split
        · rename_i hnone
          rw [hnone] at hanswer
          cases hanswer
        · rename_i hsome
          rw [hsome] at hanswer
          cases hanswer
          rw [hsome]
      rw [hstep, hmagazine]
      exact ⟨by simp, hfree⟩

theorem returnAmmo_spec (hcap : capacity ≤ 2 ^ 32 - 1) {pool : Slab ℕ} {l ammo : List ℕ}
    (h : Slab.FreeList capacity pool l) (hlt : ∀ i ∈ ammo, i < capacity)
    (hnodup : (ammo ++ l).Nodup) :
    Slab.FreeList capacity (returnAmmo pool ammo) (ammo.reverse ++ l) := by
  induction ammo generalizing pool l with
  | nil => exact h
  | cons i ammo ih =>
    obtain ⟨hi, hrest⟩ := List.nodup_cons.mp hnodup
    have hfree := Slab.deallocate_freeList hcap h (hlt i List.mem_cons_self)
      fun hmem => hi (List.mem_append_right _ hmem)
    have hnext := ih hfree (fun j hj => hlt j (List.mem_cons_of_mem i hj)) ?_
    · rw [List.reverse_cons, List.append_assoc]
      exact hnext
    · exact (List.perm_middle.nodup_iff).mpr hnodup

end Arming

/-! ## Firing -/

/-- The generator inside `fire`, the ring, and the consumer on its side of it; `faulted` once the
loop has read behind the end of the magazine. -/
structure Blaster (cap : RingCapacity) where
  ring : RingThreads ℕ cap
  totalEventsToSend : BitVec 32
  ammo : List ℕ
  next : ℕ
  successfulPushes : BitVec 32
  backpressureHits : BitVec 32
  faulted : Bool

inductive BlasterAction
  | fire
  | callPop
  | consumer

inductive BlasterNote
  | ring (e : SpscEvent ℕ)
  | outOfBounds

variable {cap : RingCapacity}

/-- What the loop does with the answer of `push`. -/
def Blaster.answered (b : Blaster cap) (ring : RingThreads ℕ cap) : SpscEvent ℕ → Blaster cap
  | .pushReturned _ true =>
    { b with ring := ring, next := b.next + 1, successfulPushes := b.successfulPushes + 1 }
  | .pushReturned _ false => { b with ring := ring, backpressureHits := b.backpressureHits + 1 }
  | _ => { b with ring := ring }

/-- The loop of `fire`, at its head and inside `push`. It is bound by the number of events wanted,
not by the magazine; what it does with an element that is not there has no meaning. -/
def fireStep (b : Blaster cap) : Option (Blaster cap × BlasterNote) :=
  match b.ring.producer with
  | .idle =>
    if b.next < b.totalEventsToSend.toNat then
      match b.ammo[b.next]? with
      | none => some ({ b with faulted := true }, .outOfBounds)
      | some ev =>
        (ringStep b.ring (.callPush (some ev))).map fun r => ({ b with ring := r.1 }, .ring r.2)
    else none
  | _ => (ringStep b.ring .producer).map fun r => (b.answered r.1 r.2, .ring r.2)

def blasterStep (b : Blaster cap) (a : BlasterAction) : Option (Blaster cap × BlasterNote) :=
  if b.faulted then none
  else match a with
    | .fire => fireStep b
    | .callPop => (ringStep b.ring .callPop).map fun r => ({ b with ring := r.1 }, .ring r.2)
    | .consumer => (ringStep b.ring .consumer).map fun r => ({ b with ring := r.1 }, .ring r.2)

def blasterInit (cap : RingCapacity) (total : BitVec 32) (ammo : List ℕ) : Blaster cap :=
  ⟨ringInit ℕ cap, total, ammo, 0, 0, 0, false⟩

def BlasterNote.ring? : BlasterNote → Option (SpscEvent ℕ)
  | .ring e => some e
  | .outOfBounds => none

/-- What the ring shows of a run. -/
def ringEvents (es : List BlasterNote) : List (SpscEvent ℕ) := es.filterMap BlasterNote.ring?

theorem ringEvents_ring (es : List BlasterNote) (e : SpscEvent ℕ) :
    ringEvents (es ++ [.ring e]) = ringEvents es ++ [e] := filterMap_snoc _ es _

theorem ringEvents_outOfBounds (es : List BlasterNote) :
    ringEvents (es ++ [.outOfBounds]) = ringEvents es := by
  rw [ringEvents, filterMap_snoc]
  exact List.append_nil _

/-- How often the ring was full. -/
def refusals (es : List (SpscEvent ℕ)) : ℕ :=
  es.countP fun | .pushReturned _ false => true | _ => false

/-- The pointer that a `push` under way was called with. -/
def inPush : RingProducerPc ℕ → Option (Option ℕ)
  | .idle => none
  | .loadWrite item => some item
  | .loadRead item _ => some item
  | .writeSlot item _ => some item
  | .storeWrite item _ => some item

/-- A step of `push` goes on with its pointer, or returns it with an answer. -/
theorem inPush_step {r u : RingThreads ℕ cap} {e : SpscEvent ℕ} {item : Option ℕ}
    (h : inPush r.producer = some item) (hr : ringProducerStep r = some (u, e)) :
    (e = .silent ∧ inPush u.producer = some item) ∨
      ∃ answer, e = .pushReturned item answer ∧ u.producer = .idle := by
  cases hp : r.producer with
  | idle =>
    rw [hp] at h
    cases h
  | loadWrite it =>
    rw [hp] at h
    cases h
    simp only [ringProducerStep, hp] at hr
    cases hr
    exact .inl ⟨rfl, rfl⟩
  | loadRead it w =>
    rw [hp] at h
    cases h
    simp only [ringProducerStep, hp] at hr
    split_ifs at hr <;> cases hr
    · exact .inr ⟨false, rfl, rfl⟩
    · exact .inl ⟨rfl, rfl⟩
  | writeSlot it w =>
    rw [hp] at h
    cases h
    simp only [ringProducerStep, hp] at hr
    cases hr
    exact .inl ⟨rfl, rfl⟩
  | storeWrite it w =>
    rw [hp] at h
    cases h
    simp only [ringProducerStep, hp] at hr
    cases hr
    exact .inr ⟨true, rfl, rfl⟩

theorem consumer_producer {r u : RingThreads ℕ cap} {e : SpscEvent ℕ}
    (hr : ringConsumerStep r = some (u, e)) :
    u.producer = r.producer ∧ ∀ item answer, e ≠ .pushReturned item answer := by
  unfold ringConsumerStep at hr
  split at hr
  · cases hr
  · cases hr
    exact ⟨rfl, by simp⟩
  · split_ifs at hr <;> cases hr <;> exact ⟨rfl, by simp⟩
  · cases hr
    exact ⟨rfl, by simp⟩
  · cases hr
    exact ⟨rfl, by simp⟩

/-- With what the ring has shown: `next` events have been taken by it, in the order of the magazine,
and the next one is the one that `push` is called with. -/
structure BlasterInv (total : BitVec 32) (ammo : List ℕ) (es : List (SpscEvent ℕ))
    (b : Blaster cap) : Prop where
  total_eq : b.totalEventsToSend = total
  ammo_eq : b.ammo = ammo
  next_le : b.next ≤ ammo.length
  taken : accepted es = ammo.take b.next
  carried : ∀ item, inPush b.ring.producer = some item → item = ammo[b.next]? ∧ item ≠ none
  pushes : b.successfulPushes = BitVec.ofNat 32 b.next
  hits : b.backpressureHits = BitVec.ofNat 32 (refusals es)
  fault : b.faulted = true → ammo.length = b.next ∧ b.next < total.toNat

theorem accepted_snoc_quiet (es : List (SpscEvent ℕ)) {e : SpscEvent ℕ}
    (he : ∀ item answer, e ≠ .pushReturned item answer) :
    accepted (es ++ [e]) = accepted es ∧ refusals (es ++ [e]) = refusals es := by
  rw [accepted_append, refusals, List.countP_append]
  cases e with
  | pushReturned item answer => exact absurd rfl (he item answer)
  | _ => simp [accepted, refusals]

section Firing
variable {total : BitVec 32} {ammo : List ℕ} {es : List (SpscEvent ℕ)} {b u : Blaster cap}
  {e : SpscEvent ℕ} {f : BlasterNote}

theorem BlasterInv.quiet (h : BlasterInv total ammo es b)
    (he : ∀ item answer, e ≠ .pushReturned item answer) {ring : RingThreads ℕ cap}
    (hcarried : ∀ item, inPush ring.producer = some item → item = ammo[b.next]? ∧ item ≠ none) :
    BlasterInv total ammo (es ++ [e]) { b with ring := ring } := by
  obtain ⟨hacc, href⟩ := accepted_snoc_quiet es he
  refine ⟨h.total_eq, h.ammo_eq, h.next_le, hacc.trans h.taken, hcarried, h.pushes, ?_, h.fault⟩
  rw [href]
  exact h.hits

theorem BlasterInv.refused (h : BlasterInv total ammo es b) {item : Option ℕ}
    {ring : RingThreads ℕ cap} (hidle : ring.producer = .idle) :
    BlasterInv total ammo (es ++ [.pushReturned item false])
      { b with ring := ring, backpressureHits := b.backpressureHits + 1 } := by
  refine ⟨h.total_eq, h.ammo_eq, h.next_le, ?_, ?_, h.pushes, ?_, h.fault⟩
  · rw [accepted_append, h.taken]
    simp [accepted]
  · intro it hit
    rw [hidle] at hit
    cases hit
  · have href : refusals (es ++ [.pushReturned item false]) = refusals es + 1 := by
      rw [refusals, List.countP_append]
      rfl
    rw [href, BitVec.ofNat_add, ← h.hits]
    rfl

theorem BlasterInv.accepted (h : BlasterInv total ammo es b) (hgoing : b.faulted = false)
    {item : Option ℕ} (hitem : item = ammo[b.next]? ∧ item ≠ none) {ring : RingThreads ℕ cap}
    (hidle : ring.producer = .idle) :
    BlasterInv total ammo (es ++ [.pushReturned item true])
      { b with
        ring := ring
        next := b.next + 1
        successfulPushes := b.successfulPushes + 1 } := by
  obtain ⟨hnext, hsome⟩ := hitem
  have hlt : b.next < ammo.length := by
    by_contra hge
    rw [List.getElem?_eq_none (Nat.not_lt.mp hge)] at hnext
    exact hsome hnext
  refine ⟨h.total_eq, h.ammo_eq, hlt, ?_, ?_, ?_, ?_, ?_⟩
  · rw [accepted_append, h.taken]
    simp only [Ring.accepted, List.append_nil]
    rw [List.take_add_one, hnext]
  · intro it hit
    rw [hidle] at hit
    cases hit
  · rw [h.pushes, BitVec.ofNat_add]
    rfl
  · have href : refusals (es ++ [.pushReturned item true]) = refusals es := by
      rw [refusals, List.countP_append]
      rfl
    rw [href]
    exact h.hits
  · intro hfault
    rw [hgoing] at hfault
    cases hfault

theorem BlasterInv.push (h : BlasterInv total ammo es b) (hgoing : b.faulted = false)
    {item : Option ℕ} (hitem : inPush b.ring.producer = some item) {ring : RingThreads ℕ cap}
    (hr : ringProducerStep b.ring = some (ring, e)) :
    BlasterInv total ammo (es ++ [e]) (b.answered ring e) := by
  have hnext := h.carried item hitem
  rcases inPush_step hitem hr with ⟨rfl, hstill⟩ | ⟨answer, rfl, hidle⟩
  · refine h.quiet (by simp) ?_
    intro it hit
    rw [hstill] at hit
    cases hit
    exact hnext
  · cases answer with
    | false => exact h.refused hidle
    | true => exact h.accepted hgoing hnext hidle

theorem BlasterInv.fire (h : BlasterInv total ammo es b) (hgoing : b.faulted = false)
    (hs : fireStep b = some (u, f)) : BlasterInv total ammo (es ++ f.ring?.toList) u := by
  unfold fireStep at hs
  split at hs
  · rename_i hidle
    split_ifs at hs with hwanted
    split at hs
    · rename_i hend
      cases hs
      -- the magazine is used up and the loop goes on
      have hused : ammo.length ≤ b.next := by
        rw [h.ammo_eq] at hend
        exact List.getElem?_eq_none_iff.mp hend
      have hat : ammo.length = b.next := Nat.le_antisymm hused h.next_le
      obtain ⟨htotal, hammo, hle, htaken, hcarried, hpushes, hhits, -⟩ := h
      rw [htotal] at hwanted
      rw [show BlasterNote.outOfBounds.ring?.toList = [] from rfl, List.append_nil]
      exact ⟨htotal, hammo, hle, htaken, hcarried, hpushes, hhits, fun _ => ⟨hat, hwanted⟩⟩
    · rename_i ev hev
      obtain ⟨⟨r, e⟩, hr, he⟩ := Option.map_eq_some_iff.mp hs
      cases he
      simp only [ringStep, hidle] at hr
      cases hr
      refine h.quiet (by simp) ?_
      intro item hitem
      cases hitem
      rw [h.ammo_eq] at hev
      exact ⟨hev.symm, by simp⟩
  · rename_i hbusy
    obtain ⟨⟨r, e⟩, hr, he⟩ := Option.map_eq_some_iff.mp hs
    cases he
    obtain ⟨item, hitem⟩ : ∃ item, inPush b.ring.producer = some item := by
      cases hp : b.ring.producer with
      | idle => exact absurd hp hbusy
      | _ => exact ⟨_, rfl⟩
    exact h.push hgoing hitem hr

theorem BlasterInv.step (h : BlasterInv total ammo es b) {a : BlasterAction}
    (hs : blasterStep b a = some (u, f)) : BlasterInv total ammo (es ++ f.ring?.toList) u := by
  unfold blasterStep at hs
  split_ifs at hs with hfault
  cases a with
  | fire => exact h.fire (by simpa using hfault) hs
  | callPop =>
    obtain ⟨⟨r, e⟩, hr, he⟩ := Option.map_eq_some_iff.mp hs
    cases he
    simp only [ringStep] at hr
    split at hr
    · cases hr
      exact h.quiet (by simp) h.carried
    · cases hr
  | consumer =>
    obtain ⟨⟨r, e⟩, hr, he⟩ := Option.map_eq_some_iff.mp hs
    cases he
    obtain ⟨hproducer, hquiet⟩ := consumer_producer hr
    refine h.quiet hquiet ?_
    intro item hitem
    rw [show r.producer = b.ring.producer from hproducer] at hitem
    exact h.carried item hitem

theorem blaster_invariant {es : List BlasterNote}
    (h : Exec blasterStep (fun _ _ => True) (blasterInit cap total ammo) es b) :
    BlasterInv total ammo (ringEvents es) b := by
  refine h.invariant (fun es b => BlasterInv total ammo (ringEvents es) b)
    ⟨rfl, rfl, Nat.zero_le _, rfl, ?_, rfl, rfl, ?_⟩ ?_
  · intro item hitem
    cases hitem
  · intro hfault
    cases hfault
  · intro es b a u f hi _ hs
    show BlasterInv total ammo ((es ++ [f]).filterMap BlasterNote.ring?) u
    rw [filterMap_snoc]
    exact hi.step hs

/-- Every step is a step of the ring, or the fault. -/
theorem blasterStep_ring {a : BlasterAction} (hs : blasterStep b a = some (u, f)) :
    (∃ c e, f = .ring e ∧ NonNullPush b.ring.view c ∧ ringStep b.ring c = some (u.ring, e)) ∨
      f = .outOfBounds ∧ u.ring = b.ring := by
  unfold blasterStep at hs
  split_ifs at hs with hfault
  cases a with
  | fire =>
    unfold fireStep at hs
    dsimp only at hs
    split at hs
    · split_ifs at hs
      split at hs
      · cases hs
        exact .inr ⟨rfl, rfl⟩
      · rename_i ev hev
        obtain ⟨⟨r, e⟩, hr, he⟩ := Option.map_eq_some_iff.mp hs
        cases he
        exact .inl ⟨.callPush (some ev), e, rfl, trivial, hr⟩
    · obtain ⟨⟨r, e⟩, hr, he⟩ := Option.map_eq_some_iff.mp hs
      have hring : (b.answered r e).ring = r := by
        rcases e with _ | ⟨item, _ | _⟩ | item <;> rfl
      cases he
      refine .inl ⟨.producer, e, rfl, trivial, ?_⟩
      rw [hring]
      exact hr
  | callPop =>
    obtain ⟨⟨r, e⟩, hr, he⟩ := Option.map_eq_some_iff.mp hs
    cases he
    exact .inl ⟨.callPop, e, rfl, trivial, hr⟩
  | consumer =>
    obtain ⟨⟨r, e⟩, hr, he⟩ := Option.map_eq_some_iff.mp hs
    cases he
    exact .inl ⟨.consumer, e, rfl, trivial, hr⟩

theorem blaster_ring {es : List BlasterNote}
    (h : Exec blasterStep (fun _ _ => True) (blasterInit cap total ammo) es b) :
    Exec spscStep NonNullPush (spscInit cap.size_pos fun _ => none) (ringEvents es)
      b.ring.view := by
  induction h with
  | nil => exact .nil
  | snoc _ _ hs ih =>
    rcases blasterStep_ring hs with ⟨c, e, rfl, hc, hring⟩ | ⟨rfl, hring⟩
    · rw [ringEvents_ring]
      exact ih.snoc hc (ringStep_view hring)
    · rw [ringEvents_outOfBounds, hring]
      exact ih

/-- The loop ends when all the events wanted have been taken, not before. -/
theorem BlasterInv.ended (h : BlasterInv total ammo es b) (hgoing : b.faulted = false)
    (hs : blasterStep b .fire = none) : total.toNat ≤ b.next := by
  by_contra hlt
  simp only [blasterStep, hgoing, Bool.false_eq_true, if_false, fireStep] at hs
  split at hs
  · rename_i hidle
    rw [h.total_eq, if_pos (Nat.not_le.mp hlt)] at hs
    split at hs
    · cases hs
    · simp [ringStep, hidle] at hs
  · rename_i hbusy
    rw [Option.map_eq_none_iff] at hs
    simp only [ringStep, ringProducerStep] at hs
    split at hs
    · rename_i hidle
      exact hbusy hidle
    · cases hs
    · split_ifs at hs
    · cases hs
    · cases hs

end Firing

/-- From arming to destruction, with a consumer that pops at any time and frees nothing. Arming
takes the first free slots and throws only if there are too few. Firing gives the ring the magazine
in order, each event once, whatever is refused in between, counts what it did, and ends when all the
events wanted have been taken. It reads behind the end of the magazine only after the exception,
when the whole magazine has been taken. The destructor gives back the magazine, also after the
exception: the free slots are those of the beginning. What is still in the ring then points to free
slots. -/
theorem load_generator_run {capacity eventSize : ℕ} (hcap : capacity ≤ 2 ^ 32 - 1) {pool : Slab ℕ}
    {l : List ℕ} (hpool : Slab.FreeList capacity pool l) (total : BitVec 32) (cap : RingCapacity)
    (es : List BlasterNote) (b : Blaster cap)
    (h : Exec blasterStep (fun _ _ => True)
      (blasterInit cap total (armWeapon eventSize total.toNat pool).2.1) es b) :
    ((armWeapon eventSize total.toNat pool).2.2 = true ↔ l.length < total.toNat) ∧
    accepted (ringEvents es) = (l.take total.toNat).take b.next ∧
    (accepted (ringEvents es)).map some =
      (popped (ringEvents es)).map some ++ b.ring.buffer.toConduit.contents ∧
    b.successfulPushes = BitVec.ofNat 32 b.next ∧
    b.backpressureHits = BitVec.ofNat 32 (refusals (ringEvents es)) ∧
    (b.faulted = true → l.length < total.toNat ∧ accepted (ringEvents es) = l) ∧
    (b.faulted = false → blasterStep b .fire = none →
      total.toNat ≤ l.length ∧ accepted (ringEvents es) = l.take total.toNat) ∧
    ∃ l', l'.Perm l ∧
      Slab.FreeList capacity (returnAmmo (armWeapon eventSize total.toNat pool).1
        (armWeapon eventSize total.toNat pool).2.1) l' ∧
      ∀ ev, some ev ∈ b.ring.buffer.toConduit.contents → ev ∈ l' := by
  obtain ⟨hmagazine, hfree⟩ := armWeapon_spec eventSize hpool total.toNat
  rw [hmagazine] at h ⊢
  have hi : BlasterInv total (l.take total.toNat) (ringEvents es) b := blaster_invariant h
  have hflow := (spsc_invariant cap.size_pos (blaster_ring h)).flow
  have hnodup : (l.take total.toNat ++ l.drop total.toNat).Nodup := by
    rw [List.take_append_drop]
    exact hpool.chain.nodup
  have hback := returnAmmo_spec hcap hfree
    (fun i hi => hpool.lt i (List.mem_of_mem_take hi)) hnodup
  have hperm : ((l.take total.toNat).reverse ++ l.drop total.toNat).Perm l := by
    have hrev := (List.reverse_perm (l.take total.toNat)).append_right (l.drop total.toNat)
    rwa [List.take_append_drop] at hrev
  have hlen : (l.take total.toNat).length = min total.toNat l.length := List.length_take
  have hnext := hi.next_le
  refine ⟨by simp, hi.taken, hflow, hi.pushes, hi.hits, ?_, ?_, _, hperm, hback, ?_⟩
  · intro hfault
    obtain ⟨hat, hlt⟩ := hi.fault hfault
    refine ⟨by omega, ?_⟩
    rw [hi.taken, ← hat, List.take_length, List.take_of_length_le (by omega)]
  · intro hgoing hend
    have hdone := hi.ended hgoing hend
    refine ⟨by omega, ?_⟩
    rw [hi.taken, List.take_of_length_le (by omega)]
  · intro ev hev
    have hmem : some ev ∈ (accepted (ringEvents es)).map some := by
      rw [hflow]
      exact List.mem_append_right _ hev
    rw [List.mem_map] at hmem
    obtain ⟨ev', hev', heq⟩ := hmem
    cases heq
    rw [hi.taken] at hev'
    exact hperm.mem_iff.mpr (List.mem_of_mem_take (List.mem_of_mem_take hev'))

/-- Two events of a slab of three fired into a ring that holds one: the second is refused once, then
the first is popped and the second taken. -/
theorem load_generator_run_two :
    ∃ (es : List BlasterNote) (b : Blaster ⟨2#32, by decide, by decide⟩),
      Exec blasterStep (fun _ _ => True)
        (blasterInit _ 2#32 (armWeapon 16 2 (Slab.init 3 fun _ => ⟨0, 0#32, 0#32⟩)).2.1) es b ∧
      accepted (ringEvents es) = [0, 1] ∧ popped (ringEvents es) = [0] ∧
      b.backpressureHits = 1#32 ∧ blasterStep b .fire = none ∧
      ∃ l' : List ℕ, l'.Perm (List.range 3) ∧ 1 ∈ l' := by
  have hpool := Slab.init_freeList (show 1 ≤ 3 by decide) (by decide)
    fun _ => (⟨0, 0#32, 0#32⟩ : Slot ℕ)
  have h := exec_of_run (show run blasterStep (fun _ _ => True)
    (blasterInit ⟨2#32, by decide, by decide⟩ 2#32
      (armWeapon 16 2 (Slab.init 3 fun _ => ⟨0, 0#32, 0#32⟩)).2.1)
    [.fire, .fire, .fire, .fire, .fire, .fire, .fire, .fire, .callPop, .consumer, .fire, .consumer,
      .consumer, .consumer, .fire, .fire, .fire, .fire] = some (_, _) from rfl)
  obtain ⟨-, -, -, -, -, -, -, l', hperm, -, hfree⟩ :=
    load_generator_run (by decide) hpool 2#32 _ _ _ h
  exact ⟨_, _, h, rfl, rfl, rfl, rfl, l', hperm, hfree 1 (by decide)⟩

end ConduitRuntime.Supplemental
