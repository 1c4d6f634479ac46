import ConduitRuntime.Foundations.Dealing
import ConduitRuntime.Routing.Walk

/-! A switch and a poller over the same tracks are one queue. The outstanding events are dealt out
over the bound tracks from the poller's cursor on, and the switch's cursor is as many bound tracks
ahead of it as there are outstanding events. -/
namespace ConduitRuntime.Routing
open Dealing Memory Simulation ConduitRuntime.Ring
set_option autoImplicit false

variable {τ A C : Type} {n size : ℕ}

/-! ## The pair and the queue -/

variable [DecidableEq τ] {array : ℕ → Option τ}

/-- The queue `q` is dealt out over the bound tracks from the poller's cursor on. -/
structure FanRel (array : ℕ → Option τ) (f : Fan τ A n size) (q : List A) : Prop where
  outputs_eq : f.switch.outputs = array
  inputs_eq : f.poller.inputs = array
  turn : scan n array f.switch.next = (scan n array f.poller.next).rotate q.length
  piles : ∃ g : τ → List A, (∀ t, (f.tracks t).contents = (g t).map some) ∧
    Dealt q g ((scan n array f.poller.next).map Prod.snd)
  le : q.length ≤ (boundTracks n array).length * (size - 1)

theorem contents_update {tracks : τ → Conduit A size} {g : τ → List A}
    (h : ∀ t, (tracks t).contents = (g t).map some) {t : τ} {c : Conduit A size} {xs : List A}
    (hc : c.contents = xs.map some) (s : τ) :
    (Function.update tracks t c s).contents = (Function.update g t xs s).map some := by
  by_cases hs : s = t
  · subst hs
    simpa using hc
  · simpa [hs] using h s

namespace FanRel
variable {f : Fan τ A n size} {q : List A}

theorem on_room (h : FanRel array f q) (hnodup : (boundTracks n array).Nodup)
    (hlt : q.length < (boundTracks n array).length * (size - 1)) {a : A} {ev : EventPtr A C}
    (hev : ev.ptr = some a) :
    (fanStep f (.on ev)).2 = ev.release.1 ∧ FanRel array (fanStep f (.on ev)).1 (q ++ [a]) := by
  obtain ⟨g, hg, hd⟩ := h.piles
  have hnd := (scan_perm n array f.poller.next).nodup_iff.mpr hnodup
  cases hs : scan n array f.switch.next with
  | nil =>
    have hlen := scan_length n array f.switch.next
    rw [hs] at hlen
    simp only [List.map_nil, List.length_nil] at hlen
    rw [← hlen, Nat.zero_mul] at hlt
    exact absurd hlt (Nat.not_lt_zero _)
  | cons b rest =>
    obtain ⟨idx, t⟩ := b
    have hturn : ((scan n array f.poller.next).map Prod.snd).rotate q.length =
        t :: rest.map Prod.snd := by
      rw [← List.map_rotate, ← h.turn, hs]
      rfl
    have hshort : (g t).length < size - 1 :=
      hd.next_lt hnd hturn (by rw [scan_length]; exact hlt)
    have hroom : (f.tracks t).contents.length + 1 ≠ size := by
      rw [hg, List.length_map]
      omega
    have hs' : boundAmong f.switch.outputs (indices n f.switch.next) = (idx, t) :: rest := by
      rw [h.outputs_eq]
      exact hs
    have hpush := pushFirst_room ev.ptr [] hs' (by simp) hroom
    have hstep : fanStep f (.on ev) =
        ({ f with
            switch := { f.switch with next := (idx + 1) % n }
            tracks := Function.update f.tracks t ((f.tracks t).push ev.ptr).1 },
          ev.release.1) := by
      simp only [fanStep, Switch.on, hpush]
      rw [hev]
    rw [hstep]
    refine ⟨rfl, h.outputs_eq, h.inputs_eq, ?_,
      ⟨Function.update g t (g t ++ [a]), contents_update hg ?_, hd.snoc a hturn⟩, ?_⟩
    · rw [scan_advance [] hs, List.length_append, ← List.rotate_rotate, ← h.turn, hs]
      simp
    · rw [((f.tracks t).push_of_room ev.ptr hroom).2, hg, hev]
      simp
    · rw [List.length_append]
      exact hlt

theorem on_full (h : FanRel array f q) (hnodup : (boundTracks n array).Nodup)
    (hge : (boundTracks n array).length * (size - 1) ≤ q.length) (ev : EventPtr A C) :
    fanStep f (.on ev) = (f, ev) := by
  obtain ⟨g, hg, hd⟩ := h.piles
  have hnd := (scan_perm n array f.poller.next).nodup_iff.mpr hnodup
  have hfull : ∀ b ∈ boundAmong f.switch.outputs (indices n f.switch.next),
      (f.tracks b.2).contents.length + 1 = size := by
    intro b hb
    have hmem : b.2 ∈ (scan n array f.poller.next).map Prod.snd := by
      rw [h.outputs_eq] at hb
      have hb' : b ∈ scan n array f.switch.next := hb
      rw [h.turn, List.mem_rotate] at hb'
      exact List.mem_map_of_mem hb'
    have hlen := hd.all_eq hnd hmem (m := size - 1) (by
      rw [scan_length]
      exact Nat.le_antisymm h.le hge)
    have hpos := (f.tracks b.2).size_pos
    rw [hg, List.length_map]
    omega
  have hpush := pushFirst_full ev.ptr hfull
  cases hev : ev.ptr with
  | none => simp only [fanStep, Switch.on, hev]
  | some a =>
    rw [hev] at hpush
    simp only [fanStep, Switch.on, hev, hpush]

theorem poll_nil (h : FanRel array f ([] : List A)) (p : C) :
    fanStep f (.poll p) = (f, .null) := by
  obtain ⟨g, hg, hd⟩ := h.piles
  have hempty : ∀ b ∈ boundAmong f.poller.inputs (indices n f.poller.next),
      (f.tracks b.2).contents = [] := by
    intro b hb
    rw [h.inputs_eq] at hb
    rw [hg, hd b.2 (List.mem_map_of_mem hb), List.map_nil]
  simp only [fanStep, Poller.poll, popFirst_empty p hempty]

theorem poll_cons {a : A} (h : FanRel array f (a :: q)) (p : C) :
    (fanStep f (.poll p)).2 = ⟨some a, some .releaseToPool, some p⟩ ∧
      FanRel array (fanStep f (.poll p)).1 q := by
  obtain ⟨g, hg, t, rest, tl, hts, hgt, hd⟩ := h.piles
  obtain ⟨b, ps, hs, hb, hps⟩ := List.map_eq_cons_iff.mp hts
  obtain ⟨idx, t'⟩ := b
  obtain rfl : t' = t := hb
  have hcons : (f.tracks t').contents = some a :: rest.map some := by
    rw [hg, hgt, List.map_cons]
  have hs' : boundAmong f.poller.inputs (indices n f.poller.next) = (idx, t') :: ps := by
    rw [h.inputs_eq]
    exact hs
  have hpop := popFirst_cons p [] hs' (by simp) (by simp) hcons
  rw [List.map_nil, passOver_nil] at hpop
  have hstep : fanStep f (.poll p) =
      ({ f with
          poller := { f.poller with next := (idx + 1) % n }
          tracks := Function.update f.tracks t' ((f.tracks t').pop p).1 },
        ⟨some a, some .releaseToPool, some p⟩) := by
    simp only [fanStep, Poller.poll, hpop]
  rw [hstep]
  have hadv : scan n array ((idx + 1) % n) = ps ++ [(idx, t')] := scan_advance [] hs
  refine ⟨rfl, h.outputs_eq, h.inputs_eq, ?_,
    ⟨Function.update g t' rest, contents_update hg ((f.tracks t').pop_of_cons p hcons).2, ?_⟩, ?_⟩
  · rw [h.turn, hadv, hs, List.length_cons, List.rotate_cons_succ]
  · rw [hadv, List.map_append, hps]
    exact hd
  · have := h.le
    rw [List.length_cons] at this
    omega

end FanRel

theorem fan_bisimulates (hnodup : (boundTracks n array).Nodup) :
    Bisimulates (fanStep : Fan τ A n size → FanCall A C → Fan τ A n size × EventPtr A C)
      (fifoStep ((boundTracks n array).length * (size - 1))) (FanRel array) := by
  have hboth : ∀ f q call, FanRel array f q →
      (fanStep f call).2 = (fifoStep ((boundTracks n array).length * (size - 1)) q call).2 ∧
      FanRel array (fanStep f call : Fan τ A n size × EventPtr A C).1
        (fifoStep ((boundTracks n array).length * (size - 1)) q call).1 := by
    intro f q call h
    cases call with
    | on ev =>
      cases hev : ev.ptr with
      | none => simpa [fanStep, Switch.on, fifoStep, hev] using h
      | some a =>
        by_cases hlt : q.length < (boundTracks n array).length * (size - 1)
        · simpa [fifoStep, hev, hlt] using h.on_room hnodup hlt hev
        · rw [h.on_full hnodup (Nat.not_lt.mp hlt) ev]
          simpa [fifoStep, hev, hlt] using h
    | poll p =>
      cases q with
      | nil =>
        rw [h.poll_nil p]
        exact ⟨rfl, h⟩
      | cons a q => exact h.poll_cons p
  exact ⟨fun f q call h => (hboth f q call h).1, fun f q call h => (hboth f q call h).2⟩

omit [DecidableEq τ] in
theorem switch_foldl (bindings : List (ℕ × τ)) (s : Switch τ n) :
    bindings.foldl (fun s b => s.bindTrack b.1 b.2) s =
      ⟨bindings.foldl (fun array b => bindTrack n array b.1 b.2) s.outputs, s.next⟩ := by
  induction bindings generalizing s with
  | nil => rfl
  | cons b bs ih => exact ih (s.bindTrack b.1 b.2)

omit [DecidableEq τ] in
theorem poller_foldl (bindings : List (ℕ × τ)) (s : Poller τ n) :
    bindings.foldl (fun s b => s.bindTrack b.1 b.2) s =
      ⟨bindings.foldl (fun array b => bindTrack n array b.1 b.2) s.inputs, s.next⟩ := by
  induction bindings generalizing s with
  | nil => rfl
  | cons b bs ih => exact ih (s.bindTrack b.1 b.2)

theorem fan_init (bindings : List (ℕ × τ)) (hsize : 0 < size) (slots : τ → ℕ → Option A) :
    FanRel (boundArray n bindings) (Fan.init bindings hsize slots : Fan τ A n size) [] := by
  refine ⟨by rw [Fan.init, switch_foldl]; rfl, by rw [Fan.init, poller_foldl]; rfl, ?_,
    ⟨fun _ => [], fun t => Conduit.contents_fresh _ _, fun _ _ => rfl⟩, Nat.zero_le _⟩
  rw [Fan.init, switch_foldl, poller_foldl]
  simp

/-- Over every sequence of calls the pair answers as the queue does, and a refused event leaves
everything as it was. -/
theorem fan_is_fifo (bindings : List (ℕ × τ))
    (hdistinct : (boundTracks n (boundArray n bindings)).Nodup) (hsize : 0 < size)
    (slots : τ → ℕ → Option A) (cs : List (FanCall A C)) :
    (calls fanStep (Fan.init bindings hsize slots : Fan τ A n size) cs).2 =
        (calls (fifoStep (fanCapacity n size bindings)) [] cs).2 ∧
      ∀ ev : EventPtr A C, fanCapacity n size bindings ≤
          (calls (fifoStep (fanCapacity n size bindings)) [] cs).1.length →
        fanStep (calls fanStep (Fan.init bindings hsize slots : Fan τ A n size) cs).1 (.on ev) =
          ((calls fanStep (Fan.init bindings hsize slots : Fan τ A n size) cs).1, ev) := by
  obtain ⟨hanswers, hrel⟩ := (fan_bisimulates hdistinct).calls (fan_init bindings hsize slots) cs
  exact ⟨hanswers, fun ev hge => hrel.on_full hdistinct hge ev⟩

/-- Indices 0 and 2 of three are bound to conduits of size 2: two events fit, the third is refused,
and the first comes out first. -/
theorem fan_is_fifo_with_hole :
    (calls fanStep (Fan.init [(0, false), (2, true)] (by decide) (fun _ _ => none) :
        Fan Bool ℕ 3 2)
      [.on ⟨some 10, none, none⟩, .on ⟨some 11, none, none⟩, .on ⟨some 12, none, none⟩,
        .poll (), .poll (), .poll ()]).2 =
      [.null, .null, ⟨some 12, none, none⟩, ⟨some 10, some .releaseToPool, some ()⟩,
        ⟨some 11, some .releaseToPool, some ()⟩, .null] := by
  rw [(fan_is_fifo [(0, false), (2, true)] (by decide) (by decide) (fun _ _ => none) _).1]
  rfl

end ConduitRuntime.Routing
