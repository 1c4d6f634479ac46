import ConduitRuntime.Routing.Walk

/-! Fairness over whole runs. The cursor moves behind the track that was served, so the number of
bound tracks the walk meets before a waiting track falls with every call that passes it by, and
nothing that happens to the other tracks can raise it again. -/
namespace ConduitRuntime.Routing
open Memory Simulation ConduitRuntime.Ring
set_option autoImplicit false

variable {τ A C : Type} {n size : ℕ} [DecidableEq τ] {array : ℕ → Option τ} {j : τ}

/-! ## Turns -/

/-- How many bound tracks the walk meets before the track `j`. -/
def turnsUntil (n : ℕ) (array : ℕ → Option τ) (next : ℕ) (j : τ) : ℕ :=
  ((scan n array next).map Prod.snd).idxOf j

theorem turnsUntil_lt (hj : j ∈ boundTracks n array) (next : ℕ) :
    turnsUntil n array next j < (boundTracks n array).length := by
  rw [← scan_length n array next]
  exact List.idxOf_lt_length_of_mem ((mem_scan_iff n array next j).mpr hj)

/-- A track the walk would have met after the one it serves gets its turn sooner. -/
theorem turnsUntil_advance (hnodup : (boundTracks n array).Nodup) {next idx : ℕ} {t : τ}
    (before : List (ℕ × τ)) {after : List (ℕ × τ)}
    (h : scan n array next = before ++ (idx, t) :: after) (hj : j ∈ after.map Prod.snd) :
    turnsUntil n array ((idx + 1) % n) j + (before.length + 1) = turnsUntil n array next j := by
  have hnd := (scan_perm n array next).nodup_iff.mpr hnodup
  rw [h, List.map_append, List.map_cons] at hnd
  obtain ⟨_, htail, hdisjoint⟩ := List.nodup_append.mp hnd
  have hbefore : j ∉ before.map Prod.snd := fun hm => hdisjoint j hm j (by simp [hj]) rfl
  have hne : t ≠ j := by
    rintro rfl
    exact (List.nodup_cons.mp htail).1 hj
  have hold : turnsUntil n array next j =
      before.length + ((after.map Prod.snd).idxOf j + 1) := by
    rw [turnsUntil, h, List.map_append, List.map_cons, List.idxOf_append_of_notMem hbefore,
      List.idxOf_cons_ne _ hne, List.length_map]
  have hnew : turnsUntil n array ((idx + 1) % n) j = (after.map Prod.snd).idxOf j := by
    rw [turnsUntil, scan_advance before h, List.map_append, List.idxOf_append_of_mem hj]
  omega

/-- The track that is served goes to the end of the line. -/
theorem turnsUntil_served (hnodup : (boundTracks n array).Nodup) {next idx : ℕ}
    (before : List (ℕ × τ)) {after : List (ℕ × τ)}
    (h : scan n array next = before ++ (idx, j) :: after) :
    turnsUntil n array next j = before.length ∧
      turnsUntil n array ((idx + 1) % n) j + 1 = (boundTracks n array).length := by
  have hnd := (scan_perm n array next).nodup_iff.mpr hnodup
  rw [h, List.map_append, List.map_cons] at hnd
  obtain ⟨_, htail, hdisjoint⟩ := List.nodup_append.mp hnd
  have hbefore : j ∉ before.map Prod.snd := fun hm => hdisjoint j hm j (by simp) rfl
  have hafter : j ∉ after.map Prod.snd := (List.nodup_cons.mp htail).1
  constructor
  · rw [turnsUntil, h, List.map_append, List.map_cons, List.idxOf_append_of_notMem hbefore,
      List.idxOf_cons_self, List.length_map, Nat.add_zero]
  · have hlength := scan_length n array ((idx + 1) % n)
    rw [turnsUntil, ← hlength, scan_advance before h]
    simp only [List.map_append, List.map_cons, List.map_nil]
    rw [List.idxOf_append_of_notMem hafter, List.idxOf_append_of_notMem hbefore,
      List.idxOf_cons_self]
    simp
    omega

/-! ## The poller -/

structure PollerSystem (τ A : Type) (n size : ℕ) where
  poller : Poller τ n
  tracks : τ → Conduit A size

/-- A call of `poll`, or a producer's push on some track. -/
inductive PollerCall (τ A C : Type)
  | push (t : τ) (ptr : Option A)
  | poll (p : C)

inductive PollerAnswer (A C : Type)
  | pushed (accepted : Bool)
  | polled (ev : EventPtr A C)

def PollerCall.isPoll : PollerCall τ A C → Bool
  | .push _ _ => false
  | .poll _ => true

def pollerStep (s : PollerSystem τ A n size) :
    PollerCall τ A C → PollerSystem τ A n size × PollerAnswer A C
  | .push t ptr =>
    let (c, accepted) := (s.tracks t).push ptr
    ({ s with tracks := Function.update s.tracks t c }, .pushed accepted)
  | .poll p =>
    let (poller, tracks, ev) := s.poller.poll s.tracks p
    (⟨poller, tracks⟩, .polled ev)

/-- A call of `poll` passes over every track it meets before the first event, which it returns. -/
theorem poll_cases (s : PollerSystem τ A n size) (p : C)
    (hnodup : (boundTracks n s.poller.inputs).Nodup) :
    ((∀ b ∈ scan n s.poller.inputs s.poller.next, (s.tracks b.2).contents.head?.join = none) ∧
      pollerStep s (.poll p) = (⟨s.poller, passOver p s.tracks
        ((scan n s.poller.inputs s.poller.next).map Prod.snd)⟩, .polled .null)) ∨
    ∃ before idx t after a xs, scan n s.poller.inputs s.poller.next = before ++ (idx, t) :: after ∧
      (∀ b ∈ before, (s.tracks b.2).contents.head?.join = none) ∧
      (s.tracks t).contents = some a :: xs ∧
      pollerStep s (.poll p) =
        (⟨{ s.poller with next := (idx + 1) % n },
          Function.update (passOver p s.tracks (before.map Prod.snd)) t ((s.tracks t).pop p).1⟩,
          .polled ⟨some a, some .releaseToPool, some p⟩) := by
  have hnd := (scan_perm n s.poller.inputs s.poller.next).nodup_iff.mpr hnodup
  cases hfind : (scan n s.poller.inputs s.poller.next).find?
      fun b => (s.tracks b.2).contents.head?.join.isSome with
  | none =>
    left
    have hidle : ∀ b ∈ scan n s.poller.inputs s.poller.next,
        (s.tracks b.2).contents.head?.join = none := by
      simpa using hfind
    have hloop := popFirst_none p hnd hidle
    refine ⟨hidle, ?_⟩
    simp only [pollerStep, Poller.poll, hloop]
    rfl
  | some b =>
    right
    obtain ⟨hevent, before, after, hsplit, hidle⟩ := List.find?_eq_some_iff_append.mp hfind
    obtain ⟨idx, t⟩ := b
    obtain ⟨a, xs, hcons⟩ : ∃ a xs, (s.tracks t).contents = some a :: xs := by
      cases hc : (s.tracks t).contents with
      | nil => simp [hc] at hevent
      | cons x xs =>
        cases x with
        | none => simp [hc] at hevent
        | some a => exact ⟨a, xs, rfl⟩
    have hidle' : ∀ b ∈ before, (s.tracks b.2).contents.head?.join = none := by
      simpa using hidle
    have hprefix : (before.map Prod.snd ++ [t]).Nodup := by
      rw [hsplit] at hnd
      refine hnd.sublist ?_
      simp
    have hloop := popFirst_cons p before hsplit hprefix hidle' hcons
    refine ⟨before, idx, t, after, a, xs, hsplit, hidle', hcons, ?_⟩
    simp only [pollerStep, Poller.poll, hloop]

/-- The call takes the front pointer `x` off the track `j`, and returns it if it is an event. -/
def TakesHead (j : τ) (x : Option A) (s : PollerSystem τ A n size) : PollerCall τ A C → Prop
  | .push _ _ => False
  | .poll p => ∃ ys, (s.tracks j).contents = x :: ys ∧
      ((pollerStep s (.poll p)).1.tracks j).contents = ys ∧
      ∀ a, x = some a →
        (pollerStep s (.poll p)).2 = .polled ⟨some a, some .releaseToPool, some p⟩

theorem poll_keeps {s : PollerSystem τ A n size} (p : C)
    (hnodup : (boundTracks n s.poller.inputs).Nodup) (hj : j ∈ boundTracks n s.poller.inputs)
    {x : Option A} {ys : List (Option A)} (hx : (s.tracks j).contents = x :: ys)
    (hmissed : ¬ TakesHead j x s (.poll p)) :
    (pollerStep s (.poll p)).1.poller.inputs = s.poller.inputs ∧
      (pollerStep s (.poll p)).1.tracks j = s.tracks j ∧
      turnsUntil n s.poller.inputs (pollerStep s (.poll p)).1.poller.next j + 1 ≤
        turnsUntil n s.poller.inputs s.poller.next j := by
  have hmem := (mem_scan_iff n s.poller.inputs s.poller.next j).mpr hj
  -- a track that is passed over has no event at its front, so what it lost is a null pointer
  have hpassed : (s.tracks j).contents.head?.join = none →
      ((pollerStep s (.poll p)).1.tracks j) = ((s.tracks j).pop p).1 → False := by
    intro hnull hpop
    refine hmissed ⟨ys, hx, ?_, ?_⟩
    · rw [hpop, Conduit.pop_contents, hx, List.tail_cons]
    · rintro a rfl
      rw [hx] at hnull
      cases hnull
  have hidle_of : ∀ bs : List (ℕ × τ), (∀ b ∈ bs, (s.tracks b.2).contents.head?.join = none) →
      j ∈ bs.map Prod.snd → (s.tracks j).contents.head?.join = none := by
    intro bs hbs hm
    obtain ⟨b, hb, rfl⟩ := List.mem_map.mp hm
    exact hbs b hb
  rcases poll_cases s p hnodup with ⟨hidle, hstep⟩ | ⟨before, idx, t, after, a, xs, hsplit, hidle,
    hcons, hstep⟩
  · refine absurd ?_ (hpassed (hidle_of _ hidle hmem))
    rw [hstep]
    simp only [passOver, hmem, if_true]
  · have hnd := (scan_perm n s.poller.inputs s.poller.next).nodup_iff.mpr hnodup
    rw [hsplit, List.map_append, List.map_cons] at hnd hmem
    have hdisjoint := (List.nodup_append.mp hnd).2.2
    have hbefore : j ∉ before.map Prod.snd := by
      intro hm
      have hjt : j ≠ t := hdisjoint j hm t (by simp)
      apply hpassed (hidle_of _ hidle hm)
      rw [hstep]
      simp only [Function.update_of_ne hjt, passOver, hm, if_true]
    have hjt : j ≠ t := by
      rintro rfl
      obtain ⟨rfl, rfl⟩ : x = some a ∧ ys = xs := by
        rw [hcons] at hx
        exact ⟨(List.cons.inj hx).1.symm, (List.cons.inj hx).2.symm⟩
      refine hmissed ⟨ys, hx, ?_, fun b hb => ?_⟩
      · rw [hstep]
        simp only [Function.update_self, Conduit.pop_contents, hx, List.tail_cons]
      · rw [hstep, Option.some.inj hb]
    have hafter : j ∈ after.map Prod.snd := by
      simpa [hbefore, hjt] using hmem
    have hturns := turnsUntil_advance hnodup before hsplit hafter
    rw [hstep]
    refine ⟨rfl, ?_, by change turnsUntil n s.poller.inputs ((idx + 1) % n) j + 1 ≤ _; omega⟩
    simp only [Function.update_of_ne hjt, passOver, hbefore, if_false]

theorem push_keeps_head (s : PollerSystem τ A n size) (t : τ) (ptr : Option A) {x : Option A}
    {ys : List (Option A)} (hx : (s.tracks j).contents = x :: ys) :
    ∃ zs, ((pollerStep s (.push t ptr : PollerCall τ A C)).1.tracks j).contents = x :: zs := by
  simp only [pollerStep]
  by_cases hj : j = t
  · subst hj
    rw [Function.update_self]
    by_cases hfull : (s.tracks j).contents.length + 1 = size
    · rw [Conduit.push_of_full _ _ hfull]
      exact ⟨ys, hx⟩
    · rw [((s.tracks j).push_of_room ptr hfull).2, hx]
      exact ⟨ys ++ [ptr], rfl⟩
  · rw [Function.update_of_ne hj]
    exact ⟨ys, hx⟩

/-- From every state and for every bound track `j` with the pointer `x` at its front: among the
next `K` calls of `poll`, whatever the producers push in between, one takes `x` off the track, and
returns it if it is an event. -/
theorem poller_serves_every_track (s : PollerSystem τ A n size)
    (hdistinct : (boundTracks n s.poller.inputs).Nodup) (j : τ)
    (hj : j ∈ boundTracks n s.poller.inputs) (x : Option A) (xs : List (Option A))
    (hx : (s.tracks j).contents = x :: xs) (cs : List (PollerCall τ A C))
    (hlong : (boundTracks n s.poller.inputs).length ≤ cs.countP PollerCall.isPoll) :
    ∃ pre p post ys, cs = pre ++ .poll p :: post ∧
      pre.countP PollerCall.isPoll < (boundTracks n s.poller.inputs).length ∧
      ((calls pollerStep s pre).1.tracks j).contents = x :: ys ∧
      ((pollerStep (calls pollerStep s pre).1 (.poll p)).1.tracks j).contents = ys ∧
      ∀ a, x = some a → (pollerStep (calls pollerStep s pre).1 (.poll p)).2 =
        .polled ⟨some a, some .releaseToPool, some p⟩ := by
  have hnear := turnsUntil_lt hj s.poller.next
  have hkeep : ∀ (u : PollerSystem τ A n size) (c : PollerCall τ A C),
      (u.poller.inputs = s.poller.inputs ∧ ∃ ys, (u.tracks j).contents = x :: ys) → True →
      ¬ TakesHead j x u c →
      ((pollerStep u c).1.poller.inputs = s.poller.inputs ∧
        ∃ ys, ((pollerStep u c).1.tracks j).contents = x :: ys) ∧
      turnsUntil n s.poller.inputs (pollerStep u c).1.poller.next j + c.isPoll.toNat ≤
        turnsUntil n s.poller.inputs u.poller.next j := by
    rintro u c ⟨hin, ys, hys⟩ - hmissed
    cases c with
    | push t ptr => exact ⟨⟨hin, push_keeps_head u t ptr hys⟩, Nat.le_refl _⟩
    | poll p =>
      rw [← hin] at hdistinct hj
      obtain ⟨hinputs, htrack, hturns⟩ := poll_keeps p hdistinct hj hys hmissed
      rw [← hin, htrack]
      exact ⟨⟨hinputs, ys, hys⟩, hturns⟩
  obtain ⟨pre, call, post, rfl, hpre, _, _, hserves⟩ := served_within _ (TakesHead j x)
    PollerCall.isPoll (fun u => turnsUntil n s.poller.inputs u.poller.next j) hkeep
    ⟨rfl, xs, hx⟩ (.of_forall (fun _ _ => trivial) s cs) (Nat.lt_of_lt_of_le hnear hlong)
  cases call with
  | push t ptr => exact hserves.elim
  | poll p =>
    obtain ⟨ys, hhead, hafter, hanswer⟩ := hserves
    exact ⟨pre, p, post, ys, rfl, Nat.lt_of_le_of_lt hpre hnear, hhead, hafter, hanswer⟩

theorem sampleSize_pos : 0 < 4 := Nat.zero_lt_succ 3

/-- The bound tracks `false` and `true` of three indices; each conduit of size 4 holds one event. -/
def twoTracks : PollerSystem Bool ℕ 3 4 where
  poller := ⟨boundArray 3 [(0, false), (2, true)], 0⟩
  tracks t := ⟨fun _ => some (if t then 7 else 1), 1, 0, by decide, sampleSize_pos⟩

/-- The other track is refilled between the two calls. -/
theorem poller_serves_every_track_refilled :
    ∃ pre p post ys,
      [PollerCall.poll (), .push false (some 3), .poll ()] = pre ++ .poll p :: post ∧
      pre.countP PollerCall.isPoll < 2 ∧
      ((calls pollerStep twoTracks pre).1.tracks true).contents = some 7 :: ys ∧
      ((pollerStep (calls pollerStep twoTracks pre).1 (.poll p)).1.tracks true).contents = ys ∧
      ∀ a, some 7 = some a → (pollerStep (calls pollerStep twoTracks pre).1 (.poll p)).2 =
        .polled ⟨some a, some .releaseToPool, some p⟩ :=
  poller_serves_every_track twoTracks (by decide) true (by decide) (some 7) [] rfl _ (by decide)

/-! ## The switch -/

structure SwitchSystem (τ A : Type) (n size : ℕ) where
  switch : Switch τ n
  tracks : τ → Conduit A size

/-- A call of `on`, or a consumer's pop on some track. -/
inductive SwitchCall (τ A C : Type)
  | on (ev : EventPtr A C)
  | pop (t : τ) (p : C)

/-- What `on` leaves in `ev`, or what the consumer got. -/
inductive SwitchAnswer (A C : Type)
  | kept (ev : EventPtr A C)
  | popped (ev : EventPtr A C)

def SwitchCall.isOn : SwitchCall τ A C → Bool
  | .on _ => true
  | .pop _ _ => false

def switchStep (s : SwitchSystem τ A n size) :
    SwitchCall τ A C → SwitchSystem τ A n size × SwitchAnswer A C
  | .on ev =>
    let (switch, tracks, rest) := s.switch.on s.tracks ev
    (⟨switch, tracks⟩, .kept rest)
  | .pop t p =>
    let (c, ev) := (s.tracks t).pop p
    ({ s with tracks := Function.update s.tracks t c }, .popped ev)

/-- `on(ev)` appends the event to the track `t`, changes no other track and gives up `ev`. -/
structure Delivered (s : SwitchSystem τ A n size) (ev : EventPtr A C) (t : τ) : Prop where
  appended : ((switchStep s (.on ev)).1.tracks t).contents = (s.tracks t).contents ++ [ev.ptr]
  others : ∀ u, u ≠ t → (switchStep s (.on ev)).1.tracks u = s.tracks u
  released : (switchStep s (.on ev)).2 = .kept ev.release.1

/-- Every call of `on` is about an event and finds room on the track `j`. -/
def RoomFor (j : τ) (s : SwitchSystem τ A n size) : SwitchCall τ A C → Prop
  | .on ev => ev.ptr ≠ none ∧ (s.tracks j).contents.length + 1 ≠ size
  | .pop _ _ => True

/-- Every call of `on` is about an event and finds no bound track full. -/
def NoneFull (s : SwitchSystem τ A n size) : SwitchCall τ A C → Prop
  | .on ev => ev.ptr ≠ none ∧
      ∀ t ∈ boundTracks n s.switch.outputs, (s.tracks t).contents.length + 1 ≠ size
  | .pop _ _ => True

/-- Every call of `on` delivers its event to some bound track. -/
def Delivers (s : SwitchSystem τ A n size) : SwitchCall τ A C → Prop
  | .on ev => ∃ t ∈ boundTracks n s.switch.outputs, Delivered s ev t
  | .pop _ _ => True

/-- How many calls of `on` have left the track `j` with one more pointer. -/
def received (j : τ) : SwitchSystem τ A n size → List (SwitchCall τ A C) → ℕ
  | _, [] => 0
  | s, .on ev :: cs =>
    (if (s.tracks j).count < ((switchStep s (.on ev)).1.tracks j).count then 1 else 0) +
      received j (switchStep s (.on ev)).1 cs
  | s, .pop t p :: cs => received j (switchStep s (.pop t p)).1 cs

/-- A call of `on` passes over the full tracks it meets before the first with room. -/
theorem on_cases {s : SwitchSystem τ A n size} {ev : EventPtr A C} (hev : ev.ptr ≠ none)
    (hj : j ∈ boundTracks n s.switch.outputs)
    (hroom : (s.tracks j).contents.length + 1 ≠ size) :
    ∃ before idx t after, scan n s.switch.outputs s.switch.next = before ++ (idx, t) :: after ∧
      (∀ b ∈ before, (s.tracks b.2).contents.length + 1 = size) ∧
      (s.tracks t).contents.length + 1 ≠ size ∧
      switchStep s (.on ev) =
        (⟨{ s.switch with next := (idx + 1) % n },
          Function.update s.tracks t ((s.tracks t).push ev.ptr).1⟩, .kept ev.release.1) := by
  cases hfind : (scan n s.switch.outputs s.switch.next).find?
      fun b => (s.tracks b.2).contents.length + 1 ≠ size with
  | none =>
    obtain ⟨b, hb, rfl⟩ := List.mem_map.mp
      ((mem_scan_iff n s.switch.outputs s.switch.next j).mpr hj)
    exact absurd hroom (by simpa using List.find?_eq_none.mp hfind b hb)
  | some b =>
    obtain ⟨hfree, before, after, hsplit, hfull⟩ := List.find?_eq_some_iff_append.mp hfind
    obtain ⟨idx, t⟩ := b
    have hfree : (s.tracks t).contents.length + 1 ≠ size := by simpa using hfree
    have hfull : ∀ b ∈ before, (s.tracks b.2).contents.length + 1 = size := by simpa using hfull
    have hloop := pushFirst_room ev.ptr before hsplit hfull hfree
    refine ⟨before, idx, t, after, hsplit, hfull, hfree, ?_⟩
    obtain ⟨a, ha⟩ := Option.ne_none_iff_exists'.mp hev
    simp only [switchStep, Switch.on, ha]
    rw [ha] at hloop
    rw [hloop]

theorem delivered_of_step {s : SwitchSystem τ A n size} {ev : EventPtr A C} {switch : Switch τ n}
    {t : τ} (hroom : (s.tracks t).contents.length + 1 ≠ size)
    (hstep : switchStep s (.on ev) =
      (⟨switch, Function.update s.tracks t ((s.tracks t).push ev.ptr).1⟩, .kept ev.release.1)) :
    Delivered s ev t where
  appended := by
    rw [hstep]
    simp only [Function.update_self, ((s.tracks t).push_of_room ev.ptr hroom).2]
  others u hu := by
    rw [hstep]
    simp only [Function.update_of_ne hu]
  released := by rw [hstep]

theorem switchStep_outputs (s : SwitchSystem τ A n size) (c : SwitchCall τ A C) :
    (switchStep s c).1.switch.outputs = s.switch.outputs := by
  cases c with
  | pop t p => rfl
  | on ev =>
    simp only [switchStep, Switch.on]
    split
    · rfl
    · split <;> rfl

theorem delivers_of_room {s : SwitchSystem τ A n size} {c : SwitchCall τ A C}
    (hj : j ∈ boundTracks n s.switch.outputs) (hroom : RoomFor j s c) : Delivers s c := by
  cases c with
  | pop t p => trivial
  | on ev =>
    obtain ⟨before, idx, t, after, hsplit, _, hfree, hstep⟩ := on_cases hroom.1 hj hroom.2
    refine ⟨t, ?_, delivered_of_step hfree hstep⟩
    rw [← mem_scan_iff n s.switch.outputs s.switch.next, hsplit]
    simp

/-- A track with room that does not get the event gets its turn sooner. -/
theorem on_keeps {s : SwitchSystem τ A n size} {ev : EventPtr A C}
    (hnodup : (boundTracks n s.switch.outputs).Nodup) (hj : j ∈ boundTracks n s.switch.outputs)
    (hroom : RoomFor j s (.on ev)) (hmissed : ¬ Delivered s ev j) :
    turnsUntil n s.switch.outputs (switchStep s (.on ev)).1.switch.next j + 1 ≤
      turnsUntil n s.switch.outputs s.switch.next j := by
  obtain ⟨before, idx, t, after, hsplit, hfull, hfree, hstep⟩ := on_cases hroom.1 hj hroom.2
  have hjt : j ≠ t := by
    rintro rfl
    exact hmissed (delivered_of_step hfree hstep)
  have hbefore : j ∉ before.map Prod.snd := by
    intro hm
    obtain ⟨b, hb, rfl⟩ := List.mem_map.mp hm
    exact hroom.2 (hfull b hb)
  have hmem := (mem_scan_iff n s.switch.outputs s.switch.next j).mpr hj
  rw [hsplit, List.map_append, List.map_cons] at hmem
  have hafter : j ∈ after.map Prod.snd := by
    simpa [hbefore, hjt] using hmem
  have hturns := turnsUntil_advance hnodup before hsplit hafter
  rw [hstep]
  change turnsUntil n s.switch.outputs ((idx + 1) % n) j + 1 ≤ _
  omega

/-- While no bound track is full, the first one of the walk gets the event. -/
theorem on_of_noneFull {s : SwitchSystem τ A n size} {ev : EventPtr A C}
    (hj : j ∈ boundTracks n s.switch.outputs) (hfree : NoneFull s (.on ev)) :
    ∃ idx t after, scan n s.switch.outputs s.switch.next = (idx, t) :: after ∧
      (switchStep s (.on ev)).1.switch.next = (idx + 1) % n ∧ Delivered s ev t := by
  obtain ⟨hev, hall⟩ := hfree
  obtain ⟨before, idx, t, after, hsplit, hfull, hroom, hstep⟩ := on_cases hev hj (hall j hj)
  cases before with
  | nil => exact ⟨idx, t, after, hsplit, by rw [hstep], delivered_of_step hroom hstep⟩
  | cons b before =>
    refine absurd (hfull b (by simp)) (hall b.2 ?_)
    rw [← mem_scan_iff n s.switch.outputs s.switch.next, hsplit]
    simp

theorem Delivered.grew_iff {s : SwitchSystem τ A n size} {ev : EventPtr A C} {t : τ}
    (h : Delivered s ev t) (u : τ) :
    (s.tracks u).count < ((switchStep s (.on ev)).1.tracks u).count ↔ u = t := by
  by_cases hu : u = t
  · subst hu
    have hlength := congrArg List.length h.appended
    rw [Conduit.contents_length, List.length_append, Conduit.contents_length,
      List.length_singleton] at hlength
    simp only [iff_true]
    omega
  · rw [h.others u hu]
    simp [hu]

/-- The events go to the bound tracks in turn. -/
theorem received_eq (s : SwitchSystem τ A n size) (cs : List (SwitchCall τ A C))
    (hnodup : (boundTracks n s.switch.outputs).Nodup) (hj : j ∈ boundTracks n s.switch.outputs)
    (hfree : Throughout switchStep NoneFull s cs) :
    received j s cs = (cs.countP SwitchCall.isOn + ((boundTracks n s.switch.outputs).length - 1 -
      turnsUntil n s.switch.outputs s.switch.next j)) /
        (boundTracks n s.switch.outputs).length := by
  induction cs generalizing s with
  | nil =>
    have hlt := turnsUntil_lt hj s.switch.next
    rw [received, List.countP_nil, Nat.zero_add, Nat.div_eq_of_lt (by omega)]
  | cons c cs ih =>
    have houtputs := switchStep_outputs s c
    have hrec := ih (switchStep s c).1 (by rw [houtputs]; exact hnodup)
      (by rw [houtputs]; exact hj) hfree.2
    rw [houtputs] at hrec
    cases c with
    | pop t p => exact hrec
    | on ev =>
      obtain ⟨idx, t, after, hsplit, hnext, hdelivered⟩ := on_of_noneFull hj hfree.1
      have hlt := turnsUntil_lt hj s.switch.next
      rw [hnext] at hrec
      rw [received, hrec, List.countP_cons_of_pos rfl]
      by_cases hjt : j = t
      · subst hjt
        obtain ⟨hzero, hlast⟩ := turnsUntil_served hnodup [] hsplit
        rw [if_pos ((hdelivered.grew_iff j).mpr rfl), Nat.add_comm 1,
          ← Nat.add_div_right _ (by omega)]
        congr 1
        rw [List.length_nil] at hzero
        omega
      · have hmem := (mem_scan_iff n s.switch.outputs s.switch.next j).mpr hj
        rw [hsplit] at hmem
        have hafter : j ∈ after.map Prod.snd := by
          simpa [hjt] using hmem
        have hturns := turnsUntil_advance hnodup [] hsplit hafter
        rw [if_neg fun hgrew => hjt ((hdelivered.grew_iff j).mp hgrew), Nat.zero_add]
        congr 1
        rw [List.length_nil] at hturns
        omega

/-- From every state and for every bound track `j`. If `j` has room at each of the calls of `on`,
at least `K` of them, whatever the consumers pop in between, then every call delivers its event and
one of the first `K` delivers it to `j`. If no bound track is ever full, then after `m` calls `j`
has received `m / K` events, rounded down or up. -/
theorem switch_spreads_evenly (s : SwitchSystem τ A n size)
    (hdistinct : (boundTracks n s.switch.outputs).Nodup) (j : τ)
    (hj : j ∈ boundTracks n s.switch.outputs) :
    (∀ cs : List (SwitchCall τ A C),
      (boundTracks n s.switch.outputs).length ≤ cs.countP SwitchCall.isOn →
      Throughout switchStep (RoomFor j) s cs →
      Throughout switchStep Delivers s cs ∧
        ∃ pre ev post, cs = pre ++ .on ev :: post ∧
          pre.countP SwitchCall.isOn < (boundTracks n s.switch.outputs).length ∧
          Delivered (calls switchStep s pre).1 ev j) ∧
    ∀ cs : List (SwitchCall τ A C), Throughout switchStep NoneFull s cs →
      received j s cs = cs.countP SwitchCall.isOn / (boundTracks n s.switch.outputs).length ∨
      received j s cs = (cs.countP SwitchCall.isOn + (boundTracks n s.switch.outputs).length - 1) /
        (boundTracks n s.switch.outputs).length := by
  have hnear := turnsUntil_lt hj s.switch.next
  constructor
  · intro cs hlong hroom
    constructor
    · refine hroom.imp (fun u => u.switch.outputs = s.switch.outputs) (fun u c hu hr => ?_) rfl
      rw [← hu] at hj
      exact ⟨delivers_of_room hj hr, (switchStep_outputs u c).trans hu⟩
    · have hkeep : ∀ (u : SwitchSystem τ A n size) (c : SwitchCall τ A C),
          u.switch.outputs = s.switch.outputs → RoomFor j u c →
          ¬ (∃ ev, c = .on ev ∧ Delivered u ev j) →
          (switchStep u c).1.switch.outputs = s.switch.outputs ∧
            turnsUntil n s.switch.outputs (switchStep u c).1.switch.next j + c.isOn.toNat ≤
              turnsUntil n s.switch.outputs u.switch.next j := by
        intro u c hu hr hmissed
        refine ⟨(switchStep_outputs u c).trans hu, ?_⟩
        cases c with
        | pop t p => exact Nat.le_refl _
        | on ev =>
          rw [← hu] at hdistinct hj ⊢
          exact on_keeps hdistinct hj hr fun hd => hmissed ⟨ev, rfl, hd⟩
      obtain ⟨pre, c, post, rfl, hpre, _, _, ev, rfl, hd⟩ := served_within
        (fun u => u.switch.outputs = s.switch.outputs)
        (fun u c => ∃ ev, c = .on ev ∧ Delivered u ev j) SwitchCall.isOn
        (fun u => turnsUntil n s.switch.outputs u.switch.next j) hkeep rfl hroom
        (Nat.lt_of_lt_of_le hnear hlong)
      exact ⟨pre, ev, post, rfl, Nat.lt_of_le_of_lt hpre hnear, hd⟩
  · intro cs hfree
    have heq := received_eq s cs hdistinct hj hfree
    generalize (boundTracks n s.switch.outputs).length = K at heq hnear ⊢
    have hlow : cs.countP SwitchCall.isOn / K ≤ received j s cs := by
      rw [heq]
      exact Nat.div_le_div_right (by omega)
    have hhigh : received j s cs ≤ (cs.countP SwitchCall.isOn + K - 1) / K := by
      rw [heq]
      exact Nat.div_le_div_right (by omega)
    have hgap : (cs.countP SwitchCall.isOn + K - 1) / K ≤ cs.countP SwitchCall.isOn / K + 1 := by
      rw [← Nat.add_div_right _ (by omega)]
      exact Nat.div_le_div_right (by omega)
    omega

/-- The bound tracks `false` and `true` of three indices; of the conduits of size 3 the first is
full. -/
def oneFull : SwitchSystem Bool ℕ 3 3 where
  switch := ⟨boundArray 3 [(0, false), (2, true)], 0⟩
  tracks t := ⟨fun _ => some 1, if t then 0 else 2, 0, by cases t <;> decide, by decide⟩

def bothFree : SwitchSystem Bool ℕ 3 3 where
  switch := oneFull.switch
  tracks _ := .fresh (by decide) fun _ => none

def twoEvents : List (SwitchCall Bool ℕ Unit) :=
  [.on ⟨some 7, none, none⟩, .on ⟨some 8, none, none⟩]

/-- The full track is passed over by the first call and drains before the second; where both tracks
have room, two calls give one event to each. -/
theorem switch_spreads_evenly_one_full :
    (Throughout switchStep Delivers oneFull
        [.on ⟨some 7, none, none⟩, .pop false (), .on ⟨some 8, none, none⟩] ∧
      ∃ pre ev post,
        [SwitchCall.on ⟨some 7, none, none⟩, .pop false (), .on ⟨some 8, none, none⟩] =
          pre ++ .on ev :: post ∧
        pre.countP SwitchCall.isOn < 2 ∧ Delivered (calls switchStep oneFull pre).1 ev true) ∧
    (received true bothFree twoEvents = 2 / 2 ∨
      received true bothFree twoEvents = (2 + 2 - 1) / 2) := by
  constructor
  · exact (switch_spreads_evenly oneFull (by decide) true (by decide)).1 _ (by decide)
      ⟨⟨by simp, by decide⟩, trivial, ⟨by simp, by decide⟩, trivial⟩
  · exact (switch_spreads_evenly bothFree (by decide) true (by decide)).2 twoEvents
      ⟨⟨by simp, by decide⟩, ⟨by simp, by decide⟩, trivial⟩

end ConduitRuntime.Routing
