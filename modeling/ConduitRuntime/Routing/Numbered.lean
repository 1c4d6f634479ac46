import ConduitRuntime.Routing.Fairness
import ConduitRuntime.Routing.FanFifo

/-! A switch or a poller that has track `i` bound under index `i`, for every index. One call then is
described by the tracks alone. -/
namespace ConduitRuntime.Routing
open Memory ConduitRuntime.Ring
set_option autoImplicit false

variable {A C : Type} {n size : ℕ} {array : ℕ → Option ℕ} {tracks : ℕ → Conduit A size}

def Numbered (n : ℕ) (array : ℕ → Option ℕ) : Prop := ∀ i < n, array i = some i

/-- The room of `tracks j`, as `push` sees it. -/
def HasRoom (tracks : ℕ → Conduit A size) (j : ℕ) : Prop := (tracks j).contents.length + 1 ≠ size

/-- The calls of `bind_track`. -/
def numbering (n : ℕ) : List (ℕ × ℕ) := (List.range n).map fun i => (i, i)

theorem numbered_boundArray (n : ℕ) : Numbered n (boundArray n (numbering n)) := by
  have hfold : ∀ m ≤ n, ∀ i < m, (boundArray n (numbering m)) i = some i := by
    intro m
    induction m with
    | zero =>
      intro _ i hi
      exact absurd hi (Nat.not_lt_zero i)
    | succ m ih =>
      intro hm i hi
      rw [boundArray, numbering, List.range_succ, List.map_append, List.foldl_append, List.map_cons,
        List.map_nil, List.foldl_cons, List.foldl_nil, bindTrack, if_pos (by omega)]
      by_cases him : i = m
      · rw [him, Function.update_self]
      · rw [Function.update_of_ne him]
        exact ih (by omega) i (by omega)
  exact hfold n (Nat.le_refl n)

/-- A switch and a poller as constructed and bound. -/
def Switch.numbered (n : ℕ) : Switch ℕ n :=
  (numbering n).foldl (fun s b => s.bindTrack b.1 b.2) ⟨fun _ => none, 0⟩

def Poller.numbered (n : ℕ) : Poller ℕ n :=
  (numbering n).foldl (fun s b => s.bindTrack b.1 b.2) ⟨fun _ => none, 0⟩

theorem Switch.numbered_eq (n : ℕ) : Switch.numbered n = ⟨boundArray n (numbering n), 0⟩ :=
  switch_foldl _ _

theorem Poller.numbered_eq (n : ℕ) : Poller.numbered n = ⟨boundArray n (numbering n), 0⟩ :=
  poller_foldl _ _

theorem Numbered.boundTracks_eq (h : Numbered n array) : boundTracks n array = List.range n := by
  have hmap : (List.range n).filterMap array = (List.range n).filterMap some := by
    apply List.filterMap_congr
    intro i hi
    exact h i (List.mem_range.mp hi)
  rw [boundTracks, hmap, List.filterMap_some]

theorem Numbered.mem_scan (h : Numbered n array) {next : ℕ} {b : ℕ × ℕ}
    (hb : b ∈ scan n array next) : b.1 = b.2 ∧ b.2 < n := by
  obtain ⟨i, hi, hib⟩ := List.mem_filterMap.mp hb
  obtain ⟨k, hk, rfl⟩ := List.mem_map.mp hi
  have hlt : (next + k) % n < n := Nat.mod_lt _ (Nat.zero_lt_of_lt (List.mem_range.mp hk))
  rw [h _ hlt] at hib
  cases hib
  exact ⟨rfl, hlt⟩

/-- The walk begins at the cursor. -/
theorem Numbered.scan_head (h : Numbered n array) (hn : 0 < n) (next : ℕ) :
    (scan n array next).head? = some (next % n, next % n) := by
  obtain ⟨m, rfl⟩ : ∃ m, n = m + 1 := ⟨n - 1, by omega⟩
  have hlt : next % (m + 1) < m + 1 := Nat.mod_lt _ hn
  rw [scan, indices, List.range_succ_eq_map, List.map_cons, boundAmong_cons, Nat.add_zero, h _ hlt]
  rfl

/-- An event is refused when all tracks are full; else one with room gets it, and that is the one at
the cursor unless it is full. -/
theorem Switch.on_numbered {s : Switch ℕ n} (h : Numbered n s.outputs) (hn : 0 < n)
    {ev : EventPtr A C} {a : A} (hev : ev.ptr = some a) :
    (∀ j < n, ¬ HasRoom tracks j) ∧ s.on tracks ev = (s, tracks, ev) ∨
    ∃ j < n, HasRoom tracks j ∧ (HasRoom tracks (s.next % n) → j = s.next % n) ∧
      s.on tracks ev = ({ s with next := (j + 1) % n },
        Function.update tracks j ((tracks j).push (some a)).1, ev.release.1) := by
  by_cases hroom : ∃ j < n, HasRoom tracks j
  · right
    obtain ⟨j₀, hj₀, hroom₀⟩ := hroom
    have hptr : ev.ptr ≠ none := by
      rw [hev]
      rintro ⟨⟩
    have hmem : j₀ ∈ boundTracks n s.outputs := by
      rw [h.boundTracks_eq]
      exact List.mem_range.mpr hj₀
    obtain ⟨before, idx, t, after, hsplit, hfull, hfree, hstep⟩ :=
      on_cases (s := ⟨s, tracks⟩) hptr hmem hroom₀
    obtain ⟨rfl, ht⟩ : idx = t ∧ t < n := h.mem_scan (b := (idx, t)) (by rw [hsplit]; simp)
    refine ⟨idx, ht, hfree, ?_, ?_⟩
    · intro hnext
      have hhead := h.scan_head hn s.next
      rw [hsplit] at hhead
      cases before with
      | nil =>
        cases hhead
        rfl
      | cons b before =>
        have hb := hfull b List.mem_cons_self
        cases hhead
        exact absurd hb hnext
    · simp only [switchStep, Prod.mk.injEq, SwitchSystem.mk.injEq, SwitchAnswer.kept.injEq] at hstep
      obtain ⟨⟨hswitch, htracks⟩, hrest⟩ := hstep
      rw [hev] at htracks
      exact Prod.ext hswitch (Prod.ext htracks hrest)
  · left
    have hfull : ∀ j < n, ¬ HasRoom tracks j := fun j hj hroom' => hroom ⟨j, hj, hroom'⟩
    refine ⟨hfull, ?_⟩
    have hpush : pushFirst s.outputs ev.ptr tracks (indices n s.next) = (tracks, none) := by
      apply pushFirst_full
      intro b hb
      exact not_not.mp (hfull b.2 (h.mem_scan hb).2)
    rw [hev] at hpush
    simp only [Switch.on, hev, hpush]

theorem passOver_of_empty (p : C) {ts : List ℕ} (h : ∀ t ∈ ts, (tracks t).contents = []) :
    passOver p tracks ts = tracks := by
  funext u
  unfold passOver
  split_ifs with hu
  · rw [(tracks u).pop_of_empty p (h u hu)]
  · rfl

/-- Over tracks without null pointers: null when all are empty, else the first event of one. -/
theorem Poller.poll_numbered {s : Poller ℕ n} (h : Numbered n s.inputs)
    (hnull : ∀ j < n, none ∉ (tracks j).contents) (p : C) :
    (∀ j < n, (tracks j).contents = []) ∧ s.poll tracks p = (s, tracks, .null) ∨
    ∃ j < n, ∃ a xs, (tracks j).contents = some a :: xs ∧
      s.poll tracks p = ({ s with next := (j + 1) % n },
        Function.update tracks j ((tracks j).pop p).1, ⟨some a, some .releaseToPool, some p⟩) := by
  have hempty : ∀ b ∈ scan n s.inputs s.next, (tracks b.2).contents.head?.join = none →
      (tracks b.2).contents = [] := by
    intro b hb hhead
    have hno := hnull b.2 (h.mem_scan hb).2
    cases hc : (tracks b.2).contents with
    | nil => rfl
    | cons x xs =>
      rw [hc] at hhead hno
      cases x with
      | none => exact absurd List.mem_cons_self hno
      | some a => cases hhead
  have hnodup : (boundTracks n s.inputs).Nodup := by
    rw [h.boundTracks_eq]
    exact List.nodup_range
  rcases poll_cases ⟨s, tracks⟩ p hnodup with
    ⟨hidle, hstep⟩ | ⟨before, idx, t, after, a, xs, hsplit, hidle, hcons, hstep⟩
  · left
    simp only [pollerStep, Prod.mk.injEq, PollerSystem.mk.injEq, PollerAnswer.polled.injEq] at hstep
    obtain ⟨⟨hpoller, htracks⟩, hev⟩ := hstep
    have hall : ∀ j < n, (tracks j).contents = [] := by
      intro j hj
      have hmem : j ∈ (scan n s.inputs s.next).map Prod.snd := by
        rw [mem_scan_iff, h.boundTracks_eq]
        exact List.mem_range.mpr hj
      obtain ⟨b, hb, rfl⟩ := List.mem_map.mp hmem
      exact hempty b hb (hidle b hb)
    refine ⟨hall, Prod.ext hpoller (Prod.ext ?_ hev)⟩
    rw [htracks]
    apply passOver_of_empty
    intro t ht
    obtain ⟨b, hb, rfl⟩ := List.mem_map.mp ht
    exact hall b.2 (h.mem_scan hb).2
  · right
    obtain ⟨rfl, ht⟩ : idx = t ∧ t < n := h.mem_scan (b := (idx, t)) (by rw [hsplit]; simp)
    simp only [pollerStep, Prod.mk.injEq, PollerSystem.mk.injEq, PollerAnswer.polled.injEq] at hstep
    obtain ⟨⟨hpoller, htracks⟩, hev⟩ := hstep
    refine ⟨idx, ht, a, xs, hcons, Prod.ext hpoller (Prod.ext ?_ hev)⟩
    rw [htracks, passOver_of_empty]
    intro u hu
    obtain ⟨b, hb, rfl⟩ := List.mem_map.mp hu
    exact hempty b (by rw [hsplit]; exact List.mem_append_left _ hb) (hidle b hb)

end ConduitRuntime.Routing
