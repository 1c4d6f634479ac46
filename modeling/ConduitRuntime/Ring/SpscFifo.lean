import ConduitRuntime.Ring.SpscSteps

/-! Every interleaving of one producer and one consumer on a conduit is first in, first out. The
invariant ties what each thread has loaded to the ring: a copy of the thread's own index is never
stale, and room seen by the producer or a pointer seen by the consumer stays there, since only
the thread itself can take it away. -/
namespace ConduitRuntime.Ring
open CyclicWindow Execution Memory
set_option autoImplicit false

section Fifo
variable {A : Type} {size : ℕ}

theorem accepted_append (es fs : List (SpscEvent A)) :
    accepted (es ++ fs) = accepted es ++ accepted fs := by
  induction es with
  | nil => rfl
  | cons e es ih =>
    rcases e with _ | ⟨p, _ | _⟩ | p <;> simp [accepted, ih]

theorem popped_append (es fs : List (SpscEvent A)) :
    popped (es ++ fs) = popped es ++ popped fs := by
  induction es with
  | nil => rfl
  | cons e es ih =>
    rcases e with _ | ⟨p, b⟩ | p <;> simp [popped, ih]

theorem contents_head (c : Conduit A size) (h : c.contents ≠ []) :
    c.contents.head? = some (c.ring c.readIdx) := by
  rw [c.contents_storeRead fun he => h (c.empty_iff.mp he)]
  rfl

/-- An event that neither accepts nor returns a pointer leaves the two histories as they are. -/
theorem flow_quiet {es : List (SpscEvent A)} {e : SpscEvent A} {xs : List (Option A)}
    (ha : accepted [e] = []) (hp : popped [e] = [])
    (h : (accepted es).map some = (popped es).map some ++ xs) :
    (accepted (es ++ [e])).map some = (popped (es ++ [e])).map some ++ xs := by
  rw [accepted_append, popped_append, ha, hp, List.append_nil, List.append_nil]
  exact h

/-- What the producer knows at each point of `push`. -/
def ProducerOk (c : Conduit A size) : ProducerPc A → Prop
  | .idle => True
  | .loadWrite ptr => ptr ≠ none
  | .loadRead ptr currentWrite => ptr ≠ none ∧ currentWrite = c.writeIdx
  | .writeSlot ptr currentWrite =>
    ptr ≠ none ∧ currentWrite = c.writeIdx ∧ c.contents.length + 1 < size
  | .storeWrite ptr currentWrite =>
    ptr ≠ none ∧ currentWrite = c.writeIdx ∧ c.contents.length + 1 < size ∧ c.ring c.writeIdx = ptr

/-- What the consumer knows at each point of `pop`. -/
def ConsumerOk (c : Conduit A size) : ConsumerPc A → Prop
  | .idle => True
  | .loadRead => True
  | .loadWrite currentRead => currentRead = c.readIdx
  | .readSlot currentRead => currentRead = c.readIdx ∧ c.contents ≠ []
  | .storeRead currentRead ptr => currentRead = c.readIdx ∧ c.contents.head? = some ptr

structure SpscInv (es : List (SpscEvent A)) (s : Spsc A size) : Prop where
  flow : (accepted es).map some = (popped es).map some ++ s.conduit.contents
  producer : ProducerOk s.conduit s.producer
  consumer : ConsumerOk s.conduit s.consumer

/-! ## One thread's stores do not disturb the other -/

theorem consumerOk_writeSlot {c : Conduit A size} {k : ConsumerPc A} (ptr : Option A)
    (h : ConsumerOk c k) : ConsumerOk (c.writeSlot c.writeIdx ptr) k := by
  cases k with
  | idle => trivial
  | loadRead => trivial
  | loadWrite r => exact h
  | readSlot r => exact ⟨h.1, by rw [c.contents_writeSlot]; exact h.2⟩
  | storeRead r p => exact ⟨h.1, by rw [c.contents_writeSlot]; exact h.2⟩

theorem consumerOk_storeWrite {c : Conduit A size} {k : ConsumerPc A}
    (hroom : (c.writeIdx + 1) % size ≠ c.readIdx) (h : ConsumerOk c k) :
    ConsumerOk (c.storeWrite c.writeIdx) k := by
  cases k with
  | idle => trivial
  | loadRead => trivial
  | loadWrite r => exact h
  | readSlot r => exact ⟨h.1, by rw [c.contents_storeWrite hroom]; simp⟩
  | storeRead r p =>
    refine ⟨h.1, ?_⟩
    rw [c.contents_storeWrite hroom, List.head?_append, h.2]
    rfl

theorem producerOk_storeRead {c : Conduit A size} {k : ProducerPc A}
    (hne : c.readIdx ≠ c.writeIdx) (h : ProducerOk c k) :
    ProducerOk (c.storeRead c.readIdx) k := by
  have hlen := congrArg List.length (c.contents_storeRead hne)
  rw [List.length_cons] at hlen
  cases k with
  | idle => trivial
  | loadWrite p => exact h
  | loadRead p w => exact h
  | writeSlot p w => exact ⟨h.1, h.2.1, by have := h.2.2; omega⟩
  | storeWrite p w => exact ⟨h.1, h.2.1, by have := h.2.2.1; omega, h.2.2.2⟩

/-! ## Steps -/

theorem producerStep_inv {es : List (SpscEvent A)} {s t : Spsc A size} {e : SpscEvent A}
    (hi : SpscInv es s) (hs : producerStep s = some (t, e)) : SpscInv (es ++ [e]) t := by
  obtain ⟨c, p, k⟩ := s
  obtain ⟨hflow, hp, hc⟩ := hi
  dsimp only at hflow hp hc
  cases p with
  | idle => cases hs
  | loadWrite ptr =>
    cases hs
    exact ⟨flow_quiet rfl rfl hflow,
      ⟨hp, rfl⟩, hc⟩
  | loadRead ptr w =>
    obtain ⟨hnull, rfl⟩ := hp
    unfold producerStep at hs
    dsimp only at hs
    split_ifs at hs with hfull
    · cases hs
      exact ⟨flow_quiet rfl rfl hflow, trivial, hc⟩
    · cases hs
      have hroom : c.contents.length + 1 ≠ size := fun he => hfull (c.full_iff.mpr he)
      have hlt := c.count_lt
      rw [← c.contents_length] at hlt
      exact ⟨flow_quiet rfl rfl hflow,
        ⟨hnull, rfl, show c.contents.length + 1 < size by omega⟩, hc⟩
  | writeSlot ptr w =>
    obtain ⟨hnull, rfl, hroom⟩ := hp
    cases hs
    refine ⟨?_, ⟨hnull, rfl, ?_, ?_⟩, consumerOk_writeSlot ptr hc⟩
    · rw [c.contents_writeSlot]
      exact flow_quiet rfl rfl hflow
    · rw [c.contents_writeSlot]
      exact hroom
    · simp [Conduit.writeSlot]
  | storeWrite ptr w =>
    obtain ⟨hnull, rfl, hroom, rfl⟩ := hp
    cases hs
    have hne : (c.writeIdx + 1) % size ≠ c.readIdx := fun he => by
      have := c.full_iff.mp he
      omega
    obtain ⟨q, hq⟩ := Option.ne_none_iff_exists'.mp hnull
    refine ⟨?_, trivial, consumerOk_storeWrite hne hc⟩
    rw [c.contents_storeWrite hne, hq]
    rw [accepted_append, popped_append, List.map_append, hflow]
    simp [accepted, popped]

theorem consumerStep_inv {es : List (SpscEvent A)} {s t : Spsc A size} {e : SpscEvent A}
    (hi : SpscInv es s) (hs : consumerStep s = some (t, e)) : SpscInv (es ++ [e]) t := by
  obtain ⟨c, p, k⟩ := s
  obtain ⟨hflow, hp, hc⟩ := hi
  dsimp only at hflow hp hc
  cases k with
  | idle => cases hs
  | loadRead =>
    cases hs
    exact ⟨flow_quiet rfl rfl hflow, hp, rfl⟩
  | loadWrite r =>
    obtain rfl : r = c.readIdx := hc
    unfold consumerStep at hs
    dsimp only at hs
    split_ifs at hs with hempty
    · cases hs
      exact ⟨flow_quiet rfl rfl hflow, hp, trivial⟩
    · cases hs
      exact ⟨flow_quiet rfl rfl hflow, hp,
        rfl, fun h => hempty (c.empty_iff.mpr h)⟩
  | readSlot r =>
    obtain ⟨rfl, hne⟩ := hc
    cases hs
    exact ⟨flow_quiet rfl rfl hflow, hp,
      rfl, contents_head c hne⟩
  | storeRead r ptr =>
    obtain ⟨rfl, hhead⟩ := hc
    cases hs
    have hne : c.readIdx ≠ c.writeIdx := by
      intro he
      rw [c.empty_iff.mp he] at hhead
      cases hhead
    have hfront := c.contents_storeRead hne
    obtain rfl : ptr = c.ring c.readIdx := by
      rw [hfront] at hhead
      simpa using hhead.symm
    -- the front pointer was accepted, hence is not null
    obtain ⟨q, _, hq⟩ : ∃ q ∈ accepted es, some q = c.ring c.readIdx := by
      rw [← List.mem_map, hflow, hfront]
      simp
    refine ⟨?_, producerOk_storeRead hne hp, trivial⟩
    rw [accepted_append, popped_append, ← hq]
    simp only [accepted, popped, List.append_nil, List.map_append, hflow]
    rw [hfront, ← hq]
    simp

theorem spscStep_inv {es : List (SpscEvent A)} {s t : Spsc A size} {a : SpscAction A}
    {e : SpscEvent A} (hi : SpscInv es s) (hok : NonNullPush s a)
    (hs : spscStep s a = some (t, e)) : SpscInv (es ++ [e]) t := by
  cases a with
  | callPush ptr =>
    have hnull : ptr ≠ none := by
      rintro rfl
      exact hok
    unfold spscStep at hs
    dsimp only at hs
    split at hs
    · cases hs
      exact ⟨flow_quiet rfl rfl hi.flow, hnull,
        hi.consumer⟩
    · cases hs
  | callPop =>
    unfold spscStep at hs
    dsimp only at hs
    split at hs
    · cases hs
      exact ⟨flow_quiet rfl rfl hi.flow,
        hi.producer, trivial⟩
    · cases hs
  | producer => exact producerStep_inv hi hs
  | consumer => exact consumerStep_inv hi hs

theorem spsc_invariant (hsize : 0 < size) {ring : ℕ → Option A} {es : List (SpscEvent A)}
    {s : Spsc A size} (h : Exec spscStep NonNullPush (spscInit hsize ring) es s) :
    SpscInv es s := by
  have hinit : SpscInv [] (spscInit hsize ring) :=
    ⟨by simp [spscInit, accepted, popped], trivial, trivial⟩
  exact h.invariant SpscInv hinit fun _ _ _ _ _ hi hok hs => spscStep_inv hi hok hs

/-! ## Returns without a pointer -/

/-- Which step each event comes from. -/
theorem event_cases {s t : Spsc A size} {a : SpscAction A} {e : SpscEvent A}
    (hs : spscStep s a = some (t, e)) :
    e = .silent ∨ (∃ ptr, e = .pushReturned ptr true) ∨
      (∃ ptr w, e = .pushReturned ptr false ∧ s.producer = .loadRead ptr w ∧
        (w + 1) % size = s.conduit.readIdx) ∨
      (∃ r, e = .popReturned none ∧ s.consumer = .loadWrite r ∧ r = s.conduit.writeIdx) ∨
      ∃ r ptr, e = .popReturned ptr ∧ s.consumer = .storeRead r ptr := by
  obtain ⟨c, p, k⟩ := s
  cases a with
  | callPush q =>
    cases p with
    | idle =>
      cases hs
      exact .inl rfl
    | _ => cases hs
  | callPop =>
    cases k with
    | idle =>
      cases hs
      exact .inl rfl
    | _ => cases hs
  | producer =>
    cases p with
    | loadRead q w =>
      simp only [spscStep, producerStep] at hs
      split_ifs at hs with hfull <;> cases hs
      · exact .inr (.inr (.inl ⟨q, w, rfl, rfl, hfull⟩))
      · exact .inl rfl
    | storeWrite q w =>
      cases hs
      exact .inr (.inl ⟨q, rfl⟩)
    | idle => cases hs
    | loadWrite q =>
      cases hs
      exact .inl rfl
    | writeSlot q w =>
      cases hs
      exact .inl rfl
  | consumer =>
    cases k with
    | loadWrite r =>
      simp only [spscStep, consumerStep] at hs
      split_ifs at hs with hempty <;> cases hs
      · exact .inr (.inr (.inr (.inl ⟨r, rfl, rfl, hempty⟩)))
      · exact .inl rfl
    | storeRead r q =>
      cases hs
      exact .inr (.inr (.inr (.inr ⟨r, q, rfl, rfl⟩)))
    | idle => cases hs
    | loadRead =>
      cases hs
      exact .inl rfl
    | readSlot r =>
      cases hs
      exact .inl rfl

/-- Only the load of `read_idx_` answers `false`. -/
theorem pushReturned_false {s t : Spsc A size} {a : SpscAction A} {ptr : Option A}
    (hs : spscStep s a = some (t, .pushReturned ptr false)) :
    ∃ w, s.producer = .loadRead ptr w ∧ (w + 1) % size = s.conduit.readIdx := by
  obtain he | ⟨_, he⟩ | ⟨q, w, he, hpc, hfull⟩ | ⟨_, he, _⟩ | ⟨_, _, he, _⟩ := event_cases hs
  · cases he
  · cases he
  · cases he
    exact ⟨w, hpc, hfull⟩
  · cases he
  · cases he

/-- A null answer comes from the load of `write_idx_`, or hands over a null pointer read before. -/
theorem popReturned_none {s t : Spsc A size} {a : SpscAction A}
    (hs : spscStep s a = some (t, .popReturned none)) :
    (∃ r, s.consumer = .loadWrite r ∧ r = s.conduit.writeIdx) ∨
      ∃ r, s.consumer = .storeRead r none := by
  obtain he | ⟨_, he⟩ | ⟨_, _, he, _⟩ | ⟨r, _, hpc, hempty⟩ | ⟨r, q, he, hpc⟩ := event_cases hs
  · cases he
  · cases he
  · cases he
  · exact .inl ⟨r, hpc, hempty⟩
  · cases he
    exact .inr ⟨r, hpc⟩

/-- In every interleaving: what `pop` returned is a prefix of what `push` accepted, the rest is
exactly what the ring holds, at most `size - 1` pointers; the producer never writes the slot the
consumer is about to read; `push` answers `false` only from the load of `read_idx_` on a full ring
and `pop` answers null only from the load of `write_idx_` on an empty one. -/
theorem spsc_fifo (hsize : 1 ≤ size) (ring : ℕ → Option A) (es : List (SpscEvent A))
    (s : Spsc A size) (h : Exec spscStep NonNullPush (spscInit hsize ring) es s) :
    popped es <+: accepted es ∧
    s.conduit.contents = ((accepted es).drop (popped es).length).map some ∧
    s.conduit.contents.length ≤ size - 1 ∧
    (∀ ptr w r, s.producer = .writeSlot ptr w → s.consumer = .readSlot r → w ≠ r) ∧
    (∀ a t ptr, spscStep s a = some (t, .pushReturned ptr false) →
      (∃ w, s.producer = .loadRead ptr w) ∧ s.conduit.contents.length = size - 1) ∧
    (∀ a t, spscStep s a = some (t, .popReturned none) →
      (∃ r, s.consumer = .loadWrite r) ∧ s.conduit.contents = []) := by
  obtain ⟨hflow, hp, hc⟩ := spsc_invariant hsize h
  have hall : ∀ p ∈ s.conduit.contents, p ≠ none := by
    intro p hm
    have hin : p ∈ (accepted es).map some := by rw [hflow]; simp [hm]
    obtain ⟨q, _, rfl⟩ := List.mem_map.mp hin
    simp
  have hrest : s.conduit.contents = ((accepted es).drop (popped es).length).map some := by
    rw [List.map_drop, hflow, List.drop_left' (by simp)]
  refine ⟨?_, hrest, ?_, ?_, ?_, ?_⟩
  · refine ⟨(accepted es).drop (popped es).length, ?_⟩
    apply List.map_injective_iff.mpr (Option.some_injective A)
    rw [List.map_append, ← hrest, hflow]
  · have := s.conduit.count_lt
    rw [s.conduit.contents_length]
    omega
  · intro ptr w r hw hr
    rw [hw] at hp
    rw [hr] at hc
    obtain ⟨rfl, hne⟩ := hc
    rw [hp.2.1]
    exact fun he => hne (s.conduit.empty_iff.mp he.symm)
  · intro a t ptr hs
    obtain ⟨w, hw, hfull⟩ := pushReturned_false hs
    rw [hw] at hp
    rw [hp.2, s.conduit.full_iff] at hfull
    exact ⟨⟨w, hw⟩, by omega⟩
  · intro a t hs
    rcases popReturned_none hs with ⟨r, hr, he⟩ | ⟨r, hr⟩
    · rw [hr] at hc
      obtain rfl : r = s.conduit.readIdx := hc
      exact ⟨⟨_, hr⟩, s.conduit.empty_iff.mp he⟩
    · rw [hr] at hc
      exact absurd rfl (hall none (List.mem_of_mem_head? hc.2))

/-- Two pointers pushed through a conduit of three slots, the first one popped again. -/
theorem spsc_fifo_three_slots : ∃ (es : List (SpscEvent ℕ)) (s : Spsc ℕ 3),
    Exec spscStep NonNullPush (spscInit (by decide) fun _ => none) es s ∧
      accepted es = [7, 8] ∧ popped es = [7] ∧ s.conduit.contents = [some 8] := by
  have h := exec_of_run (show run spscStep NonNullPush (spscInit (by decide : 0 < 3) fun _ => none)
    [.callPush (some 7), .producer, .producer, .callPop, .producer, .producer, .consumer,
      .callPush (some 8), .producer, .consumer, .producer, .producer, .consumer, .producer,
      .consumer] = some (_, _) from rfl)
  exact ⟨_, _, h, rfl, rfl, (spsc_fifo (by decide) _ _ _ h).2.1⟩

end Fifo

end ConduitRuntime.Ring
