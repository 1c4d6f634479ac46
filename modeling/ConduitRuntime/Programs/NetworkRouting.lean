import ConduitRuntime.Foundations.Shares
import ConduitRuntime.Routing.Numbered

/-! The loop of the program `02_deterministic_network_routing`: it polls ticks from the feeds and
gives each to a switch over the exchanges, until no feed has a tick. A tick that the switch does not
take goes back to the pool at the end of the iteration. -/
namespace ConduitRuntime.Programs
open Memory Routing Shares ConduitRuntime.Ring
set_option autoImplicit false

/-- `routed` lists what `routed_count` counts, and `freed` the ticks given back to the pool. -/
structure Router (A : Type) (n m size outSize : ℕ) where
  ingressRouter : Poller ℕ n
  feeds : ℕ → Conduit A size
  egressRouter : Switch ℕ m
  exchanges : ℕ → Conduit A outSize
  routed : List A
  freed : List A

variable {A : Type} {n m size outSize : ℕ}

/-- One test of the loop and, if it succeeds, one iteration. -/
def routeTick (r : Router A n m size outSize) : Router A n m size outSize × Bool :=
  let (ingressRouter, feeds, tick) := r.ingressRouter.poll r.feeds ()
  match tick.ptr with
  | none => ({ r with ingressRouter := ingressRouter, feeds := feeds }, false)
  | some a =>
    let (egressRouter, exchanges, rest) := r.egressRouter.on r.exchanges tick
    (⟨ingressRouter, feeds, egressRouter, exchanges, r.routed ++ [a], r.freed ++ rest.ptr.toList⟩,
      true)

/-- The loop; `none` if it has not ended within so many tests. -/
def routeLoop : ℕ → Router A n m size outSize → Option (Router A n m size outSize)
  | 0, _ => none
  | fuel + 1, r =>
    match routeTick r with
    | (r', false) => some r'
    | (r', true) => routeLoop fuel r'

def routerInit (feeds : ℕ → Conduit A size) (hsize : 0 < outSize) (ring : ℕ → ℕ → Option A) :
    Router A n m size outSize :=
  ⟨.numbered n, feeds, .numbered m, fun k => .fresh hsize (ring k), [], []⟩

/-! ## The feeds -/

/-- Of the ticks `f j` of each feed, some have been polled and the rest are there. -/
structure Fed (f : ℕ → List A) (r : Router A n m size outSize) (polled left : ℕ → List A) :
    Prop where
  inputs : Numbered n r.ingressRouter.inputs
  split : ∀ j < n, f j = polled j ++ left j
  contents : ∀ j < n, (r.feeds j).contents = (left j).map some
  order : ∀ j < n, (polled j).Sublist r.routed
  perm : r.routed.Perm ((List.range n).flatMap polled)

theorem flatMap_update_perm (f : ℕ → List A) {j : ℕ} (hj : j < n) (a : A) :
    ((List.range n).flatMap (Function.update f j (f j ++ [a]))).Perm
      ((List.range n).flatMap f ++ [a]) := by
  have hchange := flatMap_range_change (f := f) (g := Function.update f j (f j ++ [a])) hj
    fun i hi => Function.update_of_ne hi _ _
  rw [Function.update_self] at hchange
  refine (List.perm_append_right_iff (f j)).mp (hchange.trans ?_)
  rw [List.append_assoc]
  exact List.perm_append_comm.append_left _

section Polling
variable {f polled left : ℕ → List A} {r : Router A n m size outSize}

theorem Fed.poll (h : Fed f r polled left) :
    (∀ j < n, left j = []) ∧ r.ingressRouter.poll r.feeds () = (r.ingressRouter, r.feeds, .null) ∨
    ∃ (a : A) (feeds : ℕ → Conduit A size) (next : ℕ) (polled' left' : ℕ → List A),
      r.ingressRouter.poll r.feeds () = ({ r.ingressRouter with next := next }, feeds,
        ⟨some a, some .releaseToPool, some ()⟩) ∧
      ∀ egressRouter exchanges freed, Fed f (⟨{ r.ingressRouter with next := next }, feeds,
        egressRouter, exchanges, r.routed ++ [a], freed⟩ : Router A n m size outSize)
        polled' left' := by
  have hnull : ∀ j < n, none ∉ (r.feeds j).contents := by
    intro j hj hmem
    rw [h.contents j hj] at hmem
    obtain ⟨a, -, ha⟩ := List.mem_map.mp hmem
    cases ha
  rcases Poller.poll_numbered h.inputs hnull () with ⟨hempty, hpoll⟩ | ⟨j, hj, a, xs, hcons, hpoll⟩
  · left
    refine ⟨?_, hpoll⟩
    intro j hj
    have hc := hempty j hj
    rw [h.contents j hj] at hc
    exact List.map_eq_nil_iff.mp hc
  · right
    have hleft : (left j).map some = some a :: xs := (h.contents j hj).symm.trans hcons
    obtain ⟨a', rest, hrest, ha, hxs⟩ := List.map_eq_cons_iff.mp hleft
    obtain rfl : a' = a := Option.some.inj ha
    refine ⟨a', _, _, Function.update polled j (polled j ++ [a']), Function.update left j rest,
      hpoll, fun egressRouter exchanges freed => ⟨h.inputs, ?_, ?_, ?_, ?_⟩⟩
    · intro i hi
      by_cases hij : i = j
      · subst hij
        simp only [Function.update_self]
        rw [h.split i hi, hrest, List.append_assoc]
        rfl
      · simp only [Function.update_of_ne hij]
        exact h.split i hi
    · intro i hi
      by_cases hij : i = j
      · subst hij
        simp only [Function.update_self]
        rw [((r.feeds i).pop_of_cons () hcons).2, hxs]
      · simp only [Function.update_of_ne hij]
        exact h.contents i hi
    · intro i hi
      by_cases hij : i = j
      · subst hij
        simp only [Function.update_self]
        exact (h.order i hi).append (List.Sublist.refl _)
      · simp only [Function.update_of_ne hij]
        exact (h.order i hi).trans (List.sublist_append_left _ _)
    · exact (h.perm.append_right [a']).trans (flatMap_update_perm polled hj a').symm

end Polling

/-! ## The exchanges -/

/-- The room of all exchanges together. -/
def egressRoom (m outSize : ℕ) : ℕ := m * (outSize - 1)

/-- The first ticks are dealt out over the exchanges until these are full; the rest is freed. -/
structure DealtOut (r : Router A n m size outSize) : Prop where
  outputs : Numbered m r.egressRouter.outputs
  next : r.egressRouter.next = min r.routed.length (egressRoom m outSize) % m
  contents : ∀ k < m, (r.exchanges k).contents =
    (share m k (min r.routed.length (egressRoom m outSize))).map (r.routed[·]?)
  freed : r.freed = r.routed.drop (egressRoom m outSize)

/-- A later tick does not change what an exchange has. -/
theorem share_getElem_append (routed : List A) (a : A) {m k len : ℕ} (h : len ≤ routed.length) :
    (share m k len).map ((routed ++ [a])[·]?) = (share m k len).map (routed[·]?) := by
  apply List.map_congr_left
  intro i hi
  have hlt := (mem_share.mp hi).1
  exact List.getElem?_append_left (Nat.lt_of_lt_of_le hlt h)

namespace DealtOut
variable {r : Router A n m size outSize} {tick : EventPtr A Unit} {a : A}

/-- There is room: the exchange whose turn it is gets the tick. -/
theorem on_room (h : DealtOut r) (hm : 0 < m) (htick : tick.ptr = some a)
    (hlt : r.routed.length < egressRoom m outSize) (ingressRouter : Poller ℕ n)
    (feeds : ℕ → Conduit A size) :
    ∃ egressRouter exchanges rest, r.egressRouter.on r.exchanges tick =
        (egressRouter, exchanges, rest) ∧
      DealtOut (⟨ingressRouter, feeds, egressRouter, exchanges, r.routed ++ [a],
        r.freed ++ rest.ptr.toList⟩ : Router A n m size outSize) := by
  have hmin : min r.routed.length (egressRoom m outSize) = r.routed.length :=
    Nat.min_eq_left (Nat.le_of_lt hlt)
  have hnext := h.next
  have hcontents := h.contents
  rw [hmin] at hnext hcontents
  have hturn : HasRoom r.exchanges (r.egressRouter.next % m) := by
    have hrounds : r.routed.length / m < outSize - 1 := Nat.div_lt_of_lt_mul hlt
    rw [HasRoom, hnext, Nat.mod_mod, hcontents _ (Nat.mod_lt _ hm), List.length_map,
      share_length_turn hm]
    exact Nat.ne_of_lt (Nat.add_lt_of_lt_sub hrounds)
  rcases Switch.on_numbered h.outputs hm htick with ⟨hfull, -⟩ | ⟨k, hk, -, hfirst, hon⟩
  · exact absurd hturn (hfull _ (Nat.mod_lt _ hm))
  have hfirst := hfirst hturn
  rw [← hfirst] at hturn
  have hk' : r.routed.length % m = k := by
    rw [hfirst, hnext, Nat.mod_mod]
  have hmin' : min (r.routed ++ [a]).length (egressRoom m outSize) = r.routed.length + 1 := by
    rw [List.length_append, List.length_singleton]
    omega
  refine ⟨_, _, _, hon, h.outputs, ?_, ?_, ?_⟩
  · simp only [hmin', ← hk']
    exact Nat.mod_add_mod _ _ _
  · intro i hi
    simp only [hmin', share_succ, List.map_append, share_getElem_append r.routed a (Nat.le_refl _)]
    by_cases hik : i = k
    · subst hik
      rw [Function.update_self, ((r.exchanges i).push_of_room (some a) hturn).2, hcontents i hi,
        if_pos hk']
      simp
    · rw [Function.update_of_ne hik, hcontents i hi, if_neg (fun he => hik (he.symm.trans hk'))]
      simp
  · simp only [EventPtr.release, EventPtr.cleared_ptr, Option.toList_none, List.append_nil, h.freed]
    rw [List.drop_eq_nil_of_le (Nat.le_of_lt hlt), List.drop_eq_nil_of_le]
    rw [List.length_append]
    exact hlt

/-- All exchanges are full: the tick stays in its handle. -/
theorem on_full (h : DealtOut r) (hm : 0 < m) (htick : tick.ptr = some a)
    (hle : egressRoom m outSize ≤ r.routed.length) (ingressRouter : Poller ℕ n)
    (feeds : ℕ → Conduit A size) :
    ∃ egressRouter exchanges rest, r.egressRouter.on r.exchanges tick =
        (egressRouter, exchanges, rest) ∧
      DealtOut (⟨ingressRouter, feeds, egressRouter, exchanges, r.routed ++ [a],
        r.freed ++ rest.ptr.toList⟩ : Router A n m size outSize) := by
  have hmin : min r.routed.length (egressRoom m outSize) = egressRoom m outSize :=
    Nat.min_eq_right hle
  have hmin' : min (r.routed ++ [a]).length (egressRoom m outSize) = egressRoom m outSize := by
    rw [List.length_append, List.length_singleton]
    omega
  have hnext := h.next
  have hcontents := h.contents
  rw [hmin] at hnext hcontents
  rcases Switch.on_numbered h.outputs hm htick with ⟨-, hon⟩ | ⟨k, hk, hroom, -, -⟩
  · refine ⟨_, _, _, hon, h.outputs, ?_, ?_, ?_⟩
    · simp only [hmin', hnext]
    · intro i hi
      simp only [hmin', share_getElem_append r.routed a hle]
      exact hcontents i hi
    · simp only [htick, Option.toList_some, h.freed]
      rw [List.drop_append_of_le_length hle]
  · have hlen : (r.exchanges k).contents.length = outSize - 1 := by
      rw [hcontents k hk, List.length_map]
      exact share_length_rounds hk (outSize - 1)
    have hpos := (r.exchanges k).size_pos
    unfold HasRoom at hroom
    omega

theorem on (h : DealtOut r) (hm : 0 < m) (htick : tick.ptr = some a) (ingressRouter : Poller ℕ n)
    (feeds : ℕ → Conduit A size) :
    ∃ egressRouter exchanges rest, r.egressRouter.on r.exchanges tick =
        (egressRouter, exchanges, rest) ∧
      DealtOut (⟨ingressRouter, feeds, egressRouter, exchanges, r.routed ++ [a],
        r.freed ++ rest.ptr.toList⟩ : Router A n m size outSize) := by
  rcases Nat.lt_or_ge r.routed.length (egressRoom m outSize) with hlt | hle
  · exact h.on_room hm htick hlt ingressRouter feeds
  · exact h.on_full hm htick hle ingressRouter feeds

end DealtOut

/-! ## The loop -/

section Loop
variable {f polled left : ℕ → List A} {r : Router A n m size outSize}

theorem init_fed {feeds : ℕ → Conduit A size} (hsize : 0 < outSize) (ring : ℕ → ℕ → Option A)
    (hf : ∀ j < n, (feeds j).contents = (f j).map some) :
    Fed f (routerInit feeds hsize ring : Router A n m size outSize) (fun _ => []) f where
  inputs := by
    rw [routerInit, Poller.numbered_eq]
    exact numbered_boundArray n
  split _ _ := rfl
  contents := hf
  order _ _ := List.Sublist.refl _
  perm := by simp [routerInit]

theorem init_dealtOut (feeds : ℕ → Conduit A size) (hsize : 0 < outSize)
    (ring : ℕ → ℕ → Option A) :
    DealtOut (routerInit feeds hsize ring : Router A n m size outSize) where
  outputs := by
    rw [routerInit, Switch.numbered_eq]
    exact numbered_boundArray m
  next := by
    rw [routerInit, Switch.numbered_eq]
    simp
  contents k _ := by simp [routerInit, share]
  freed := by simp [routerInit]

/-- What is left in the feeds bounds the iterations to come. -/
theorem loop_ends (hm : 0 < m) (fuel : ℕ) (h : Fed f r polled left) (hd : DealtOut r)
    (hfuel : ((List.range n).flatMap f).length < fuel + r.routed.length) :
    ∃ r', routeLoop fuel r = some r' ∧ DealtOut r' ∧ (∀ j < n, (r'.feeds j).contents = []) ∧
      r'.routed.Perm ((List.range n).flatMap f) ∧ ∀ j < n, (f j).Sublist r'.routed := by
  induction fuel generalizing r polled left with
  | zero =>
    have hsub : ((List.range n).flatMap polled).Sublist ((List.range n).flatMap f) := by
      apply List.Sublist.flatMap_right
      intro j hj
      rw [h.split j (List.mem_range.mp hj)]
      exact List.sublist_append_left _ _
    have hlen := hsub.length_le
    rw [← h.perm.length_eq] at hlen
    omega
  | succ fuel ih =>
    rcases h.poll with ⟨hempty, hpoll⟩ | ⟨a, feeds, next, polled', left', hpoll, hfed⟩
    · have htick : routeTick r = (r, false) := by
        simp only [routeTick, hpoll, EventPtr.null_ptr]
      have hall : ∀ j < n, f j = polled j := by
        intro j hj
        rw [h.split j hj, hempty j hj, List.append_nil]
      refine ⟨r, by rw [routeLoop, htick], hd, ?_, ?_, ?_⟩
      · intro j hj
        rw [h.contents j hj, hempty j hj]
        rfl
      · have hsame : (List.range n).flatMap f = (List.range n).flatMap polled :=
          List.flatMap_congr fun j hj => hall j (List.mem_range.mp hj)
        rw [hsame]
        exact h.perm
      · intro j hj
        rw [hall j hj]
        exact h.order j hj
    · obtain ⟨egressRouter, exchanges, rest, hon, hdealt⟩ := hd.on hm
        (show (⟨some a, some .releaseToPool, some ()⟩ : EventPtr A Unit).ptr = some a from rfl)
        { r.ingressRouter with next := next } feeds
      have htick : routeTick r = (⟨{ r.ingressRouter with next := next }, feeds, egressRouter,
          exchanges, r.routed ++ [a], r.freed ++ rest.ptr.toList⟩, true) := by
        simp only [routeTick, hpoll, hon]
      rw [routeLoop, htick]
      apply ih (hfed _ _ _) hdealt
      rw [List.length_append, List.length_singleton]
      omega

/-- The loop ends, one test after the last tick, with the feeds empty. Every tick was routed once,
those of a feed in their order; the first ones are dealt out over the exchanges in turn until these
are full, and all others are back in the pool. Exchanges of size 1, as in the program, have no
room. -/
theorem network_routing (hm : 0 < m) (feeds : ℕ → Conduit A size) (f : ℕ → List A)
    (hf : ∀ j < n, (feeds j).contents = (f j).map some) (hsize : 0 < outSize)
    (ring : ℕ → ℕ → Option A) (fuel : ℕ) (hfuel : ((List.range n).flatMap f).length < fuel) :
    ∃ r : Router A n m size outSize, routeLoop fuel (routerInit feeds hsize ring) = some r ∧
      (∀ j < n, (r.feeds j).contents = []) ∧
      r.routed.Perm ((List.range n).flatMap f) ∧ (∀ j < n, (f j).Sublist r.routed) ∧
      (∀ k < m, (r.exchanges k).contents =
        (share m k (min r.routed.length (m * (outSize - 1)))).map (r.routed[·]?)) ∧
      r.freed = r.routed.drop (m * (outSize - 1)) := by
  obtain ⟨r, hrun, hd, hempty, hperm, horder⟩ := loop_ends hm fuel (init_fed hsize ring hf)
    (init_dealtOut feeds hsize ring) (by simpa [routerInit] using hfuel)
  exact ⟨r, hrun, hempty, hperm, horder, hd.contents, hd.freed⟩

/-- The two feeds of the program, with two ticks and one. -/
def sampleFeeds (j : ℕ) : Conduit ℕ 4 :=
  if j = 0 then (((Conduit.fresh sampleSize_pos fun _ => none).push (some 0)).1.push (some 1)).1
  else ((Conduit.fresh sampleSize_pos fun _ => none).push (some 10)).1

def sampleTicks (j : ℕ) : List ℕ := if j = 0 then [0, 1] else [10]

/-- Three ticks for two exchanges of size 1: all are freed. -/
theorem network_routing_program :
    ∃ r : Router ℕ 2 2 4 1,
      routeLoop 4 (routerInit sampleFeeds Nat.one_pos fun _ _ => none) = some r ∧
      r.routed.Perm [0, 1, 10] ∧ (∀ k < 2, (r.exchanges k).contents = []) ∧ r.freed = r.routed := by
  obtain ⟨r, hrun, -, hperm, -, hcontents, hfreed⟩ := network_routing (n := 2) (m := 2) (by decide)
    sampleFeeds sampleTicks (by decide) Nat.one_pos (fun _ _ => none) 4 (by decide)
  refine ⟨r, hrun, hperm, ?_, hfreed⟩
  intro k hk
  rw [hcontents k hk, Nat.sub_self, Nat.mul_zero, Nat.min_zero]
  rfl

end Loop
end ConduitRuntime.Programs
