import ConduitRuntime.Runtime.Mesh

/-! What a mesh delivers. A step of the mesh is a step of at most one link, so a run of the mesh
contains a run of every link and the delivery of a single link holds in it. The routers add the
addresses: what goes into a link is what `on` was given for the node at its other end. -/
namespace ConduitRuntime.Runtime
open Execution ConduitRuntime.Net
set_option autoImplicit false

section Delivery
variable {ν κ : Type} {w : ℕ} {cfg : Config w} [DecidableEq ν] [DecidableEq κ]
variable {maxNodes : ℕ} {target : List UInt8 → ℕ} {home : κ × Side → ν} {nodeId : ν → ℕ}
variable {m m' : Mesh ν κ cfg} {e : MeshEvent ν κ cfg}

/-! ## The steps of a polling thread -/

/-- The calls that a polling thread makes on the conduit at the side `s` of a link. -/
inductive PollCall (answers : Answers) (s : Side) : LinkAction cfg → Prop
  | recv : PollCall answers s (.pollRx s [answers.recv] [answers.canMake])
  | send : PollCall answers s (.pollTx s answers.sends)
  | rebind (fd : ℕ) : PollCall answers s (.bind s fd)

/-- A step is local to the runtime, or it is a call on one conduit. -/
theorem nodeStep_cases {u : ν} {answers : Answers} (hs : nodeStep m u answers = some (m', e)) :
    (∀ v ev c, e.note ≠ .routed v ev c) ∧ ∃ r,
      (m' = m.setRuntime u r ∧ e.link = none) ∨
      ∃ c a m₁ f, PollCall answers c.2 a ∧ m.call c a = some (m₁, f) ∧
        m' = m₁.setRuntime u r ∧ e.link = some (c.1, f) := by
  unfold nodeStep at hs
  dsimp only at hs
  split at hs
  · cases hs
  · cases hs
    exact ⟨by simp, _, .inl ⟨rfl, rfl⟩⟩
  · split_ifs at hs <;> cases hs <;> exact ⟨by simp, _, .inl ⟨rfl, rfl⟩⟩
  · split at hs
    · cases hs
      exact ⟨by simp, _, .inl ⟨rfl, rfl⟩⟩
    · split_ifs at hs <;> cases hs <;> exact ⟨by simp, _, .inl ⟨rfl, rfl⟩⟩
  · split at hs
    · cases hs
    · obtain ⟨⟨m₁, f⟩, hcall, he⟩ := Option.map_eq_some_iff.mp hs
      dsimp only at he
      split_ifs at he <;> cases he <;>
        exact ⟨by simp, _, .inr ⟨_, _, m₁, f, .recv, hcall, rfl, rfl⟩⟩
  · split at hs
    · cases hs
    · obtain ⟨⟨m₁, f⟩, hcall, he⟩ := Option.map_eq_some_iff.mp hs
      cases he
      exact ⟨by simp, _, .inr ⟨_, _, m₁, f, .send, hcall, rfl, rfl⟩⟩
  · split at hs
    · cases hs
    · split at hs
      · cases hs
        exact ⟨by simp, _, .inl ⟨rfl, rfl⟩⟩
      · obtain ⟨⟨m₁, f⟩, hcall, he⟩ := Option.map_eq_some_iff.mp hs
        cases he
        exact ⟨by simp, _, .inr ⟨_, _, m₁, f, .rebind _, hcall, rfl, rfl⟩⟩

/-! ## The links inside a run -/

omit [DecidableEq ν] in
theorem call_moves {c : κ × Side} {a : LinkAction cfg} {f : LinkEvent}
    (hs : m.call c a = some (m', f)) (hok : FewPushes (m.links c.1) a) :
    MovesOne linkStep FewPushes m.links m'.links (some (c.1, f)) := by
  obtain ⟨⟨l, g⟩, hl, he⟩ := Option.map_eq_some_iff.mp hs
  cases he
  exact MovesOne.update hok hl

theorem nodeStep_link {u : ν} {answers : Answers} (hs : nodeStep m u answers = some (m', e)) :
    MovesOne linkStep FewPushes m.links m'.links e.link := by
  obtain ⟨-, r, ⟨rfl, hlink⟩ | ⟨c, a, m₁, f, ha, hcall, rfl, hlink⟩⟩ := nodeStep_cases hs
  · rw [hlink]
    rfl
  · rw [hlink]
    have hmove := call_moves hcall (by cases ha <;> trivial)
    exact hmove

theorem meshStep_link {a : MeshAction ν κ cfg} (hok : WellWired home nodeId target m a)
    (hs : meshStep maxNodes target m a = some (m', e)) :
    MovesOne linkStep FewPushes m.links m'.links e.link := by
  cases a with
  | bindRoute u id c =>
    simp only [meshStep] at hs
    split_ifs at hs <;> cases hs <;> rfl
  | unbindRoute u id =>
    simp only [meshStep] at hs
    split_ifs at hs <;> cases hs <;> rfl
  | on u ev =>
    cases ev with
    | none =>
      cases hs
      rfl
    | some ev =>
      rcases on_cases hs with ⟨rfl, rfl⟩ | ⟨c, accepted, hroute, hcall, rfl⟩
      · rfl
      · simp only [WellWired, hroute] at hok
        exact call_moves hcall hok
  | connect c fd =>
    obtain ⟨⟨m₁, f⟩, hcall, he⟩ := Option.map_eq_some_iff.mp hs
    cases he
    exact call_moves hcall trivial
  | callRun u =>
    simp only [meshStep] at hs
    split at hs <;> cases hs
    rfl
  | stop u =>
    cases hs
    rfl
  | poll u answers => exact nodeStep_link hs

/-! ## What goes into the links -/

/-- The events that `on` has put into the conduit `c`, in order. -/
def routedOver (c : κ × Side) (es : List (MeshEvent ν κ cfg)) : List (Payload cfg) :=
  es.filterMap fun e => match e.note with
    | .routed _ ev c' => if c' = c then some ev else none
    | _ => none

omit [DecidableEq ν] in
theorem routedOver_snoc (c : κ × Side) (es : List (MeshEvent ν κ cfg)) (e : MeshEvent ν κ cfg) :
    routedOver c (es ++ [e]) = routedOver c es ++ routedOver c [e] :=
  List.filterMap_append

/-- Calls on a conduit that send nothing. -/
def Quiet : LinkAction cfg → Prop
  | .push _ _ => False
  | _ => True

theorem linkStep_quiet {l l' : Link cfg} {a : LinkAction cfg} {f : LinkEvent} (ha : Quiet a)
    (hs : linkStep l a = some (l', f)) : l'.pushed = l.pushed := by
  cases a with
  | push s ev => exact ha.elim
  | bind s k =>
    simp only [linkStep] at hs
    split_ifs at hs
    cases hs
    rfl
  | pollTx s os =>
    cases hs
    rfl
  | pollRx s os answers =>
    cases hs
    rfl

omit [DecidableEq ν] in
theorem call_quiet {c : κ × Side} {a : LinkAction cfg} {f : LinkEvent}
    (hs : m.call c a = some (m', f)) (ha : Quiet a) (d : κ × Side) :
    (m'.links d.1).pushed d.2 = (m.links d.1).pushed d.2 := by
  obtain ⟨⟨l, g⟩, hl, he⟩ := Option.map_eq_some_iff.mp hs
  cases he
  by_cases hd : d.1 = c.1
  · simp [Mesh.setLink, hd, linkStep_quiet ha hl]
  · simp [Mesh.setLink, hd]

omit [DecidableEq ν] in
/-- `push` adds the event to what has gone into its conduit, if it is accepted. -/
theorem call_push {c : κ × Side} {ev : Payload cfg} {accepted : Bool}
    (hs : m.call c (.push c.2 (some ev)) = some (m', .pushReturned c.2 accepted)) (d : κ × Side) :
    (m'.links d.1).pushed d.2 =
      (m.links d.1).pushed d.2 ++ if accepted ∧ d = c then [ev.bytes] else [] := by
  obtain ⟨⟨l, g⟩, hl, he⟩ := Option.map_eq_some_iff.mp hs
  obtain ⟨l', answer, hpush, hpushed⟩ := linkStep_push (m.links c.1) c.2 ev
  rw [hpush] at hl
  cases hl
  obtain ⟨rfl, hanswer⟩ := Prod.mk.inj he
  obtain rfl : answer = accepted := by simpa using hanswer
  by_cases hd : d.1 = c.1
  · cases answer with
    | false => simp [Mesh.setLink, hd, hpushed]
    | true =>
      by_cases hside : d.2 = c.2
      · have hdc : d = c := Prod.ext hd hside
        subst hdc
        simp [Mesh.setLink, hpushed]
      · have hdc : d ≠ c := fun h => hside (congrArg Prod.snd h)
        simp [Mesh.setLink, hpushed, hd, hside, hdc]
  · have hdc : d ≠ c := fun h => hd (congrArg Prod.fst h)
    simp [Mesh.setLink, hd, hdc]

/-! ## Routes and addresses -/

/-- A step that sends nothing and leaves the routes alone. -/
structure Bystands (m m' : Mesh ν κ cfg) (e : MeshEvent ν κ cfg) : Prop where
  routes : ∀ u, (m'.nodes u).routes = (m.nodes u).routes
  pushed : ∀ d : κ × Side, (m'.links d.1).pushed d.2 = (m.links d.1).pushed d.2
  note : ∀ u ev c, e.note ≠ .routed u ev c

omit [DecidableEq κ] in
@[simp] theorem setRuntime_routes (m : Mesh ν κ cfg) (u v : ν) (r : NodeRuntime κ) :
    ((m.setRuntime u r).nodes v).routes = (m.nodes v).routes := by
  by_cases hv : v = u
  · subst hv
    simp [Mesh.setRuntime]
  · simp [Mesh.setRuntime, hv]

omit [DecidableEq κ] in
/-- A local step of a node's thread. -/
theorem bystands_setRuntime (m : Mesh ν κ cfg) (u : ν) (r : NodeRuntime κ) {note : MeshNote ν κ cfg}
    (hnote : ∀ v ev c, note ≠ .routed v ev c) : Bystands m (m.setRuntime u r) ⟨none, note⟩ :=
  ⟨fun v => setRuntime_routes m u v r, fun _ => rfl, hnote⟩

theorem nodeStep_bystands {u : ν} {answers : Answers} (hs : nodeStep m u answers = some (m', e)) :
    Bystands m m' e := by
  obtain ⟨hnote, r, ⟨rfl, -⟩ | ⟨c, a, m₁, f, ha, hcall, rfl, -⟩⟩ := nodeStep_cases hs
  · exact ⟨fun v => setRuntime_routes m u v r, fun _ => rfl, hnote⟩
  · have hpushed := call_quiet hcall (by cases ha <;> trivial)
    refine ⟨fun v => ?_, hpushed, hnote⟩
    rw [setRuntime_routes, call_nodes hcall]

/-- What the routes lead to, and what has gone into each conduit for whom. -/
structure MeshInv (home : κ × Side → ν) (nodeId : ν → ℕ) (target : List UInt8 → ℕ)
    (es : List (MeshEvent ν κ cfg)) (m : Mesh ν κ cfg) : Prop where
  routes : ∀ u id c, (m.nodes u).routes id = some c →
    home c = u ∧ id = nodeId (home (c.1, c.2.peer))
  pushed : ∀ c : κ × Side, (m.links c.1).pushed c.2 = (routedOver c es).map Payload.bytes
  addressed : ∀ e ∈ es, ∀ u ev c, e.note = .routed u ev c →
    home c = u ∧ target ev.bytes = nodeId (home (c.1, c.2.peer))

variable {es : List (MeshEvent ν κ cfg)}

omit [DecidableEq ν] in
theorem routedOver_of_not {c : κ × Side} (h : ∀ u ev d, e.note ≠ .routed u ev d) :
    routedOver c [e] = [] := by
  obtain ⟨link, note⟩ := e
  cases note with
  | routed u ev d => exact absurd rfl (h u ev d)
  | _ => rfl

omit [DecidableEq ν] in
theorem MeshInv.bystand (h : MeshInv home nodeId target es m) (hb : Bystands m m' e) :
    MeshInv home nodeId target (es ++ [e]) m' where
  routes u id c hc := by
    rw [hb.routes] at hc
    exact h.routes u id c hc
  pushed c := by
    rw [hb.pushed, h.pushed, routedOver_snoc, routedOver_of_not hb.note, List.append_nil]
  addressed f hf u ev c hn := by
    rcases List.mem_append.mp hf with hf | hf
    · exact h.addressed f hf u ev c hn
    · rw [List.mem_singleton.mp hf] at hn
      exact absurd hn (hb.note u ev c)

theorem MeshInv.setRoute (h : MeshInv home nodeId target es m) {u : ν} {id : ℕ}
    {route : Option (κ × Side)}
    (hroute : ∀ c, route = some c → home c = u ∧ id = nodeId (home (c.1, c.2.peer))) :
    MeshInv home nodeId target (es ++ [⟨none, .none⟩]) (m.setRoute u id route) where
  routes v i c hc := by
    by_cases hv : v = u
    · subst hv
      by_cases hi : i = id
      · subst hi
        exact hroute c (by simpa [Mesh.setRoute] using hc)
      · exact h.routes v i c (by simpa [Mesh.setRoute, hi] using hc)
    · exact h.routes v i c (by simpa [Mesh.setRoute, hv] using hc)
  pushed c := by
    rw [routedOver_snoc, routedOver_of_not (by simp), List.append_nil]
    exact h.pushed c
  addressed f hf v ev c hn := by
    rcases List.mem_append.mp hf with hf | hf
    · exact h.addressed f hf v ev c hn
    · rw [List.mem_singleton.mp hf] at hn
      cases hn

omit [DecidableEq ν] in
/-- The router puts an event into the conduit its table has for the event's target. -/
theorem MeshInv.routed (h : MeshInv home nodeId target es m) {u : ν} {ev : Payload cfg}
    {c : κ × Side} (hroute : (m.nodes u).routes (target ev.bytes) = some c)
    (hcall : m.call c (.push c.2 (some ev)) = some (m', .pushReturned c.2 true)) :
    MeshInv home nodeId target
      (es ++ [⟨some (c.1, .pushReturned c.2 true), .routed u ev c⟩]) m' where
  routes v i d hd := by
    rw [call_nodes hcall] at hd
    exact h.routes v i d hd
  pushed d := by
    rw [call_push hcall, h.pushed, routedOver_snoc, List.map_append]
    by_cases hd : d = c
    · subst hd
      simp [routedOver]
    · simp [routedOver, hd, Ne.symm hd]
  addressed f hf v ev' d hn := by
    rcases List.mem_append.mp hf with hf | hf
    · exact h.addressed f hf v ev' d hn
    · rw [List.mem_singleton.mp hf] at hn
      cases hn
      exact h.routes u _ c hroute

theorem MeshInv.step (h : MeshInv home nodeId target es m) {a : MeshAction ν κ cfg}
    (hok : WellWired home nodeId target m a)
    (hs : meshStep maxNodes target m a = some (m', e)) :
    MeshInv home nodeId target (es ++ [e]) m' := by
  have hstay : ∀ link, MeshInv home nodeId target (es ++ [⟨link, .none⟩]) m := fun link =>
    h.bystand ⟨fun _ => rfl, fun _ => rfl, by simp⟩
  cases a with
  | bindRoute u id c =>
    simp only [meshStep] at hs
    split_ifs at hs
    · cases hs
      refine h.setRoute fun d hd => ?_
      obtain rfl : c = d := Option.some.inj hd
      exact hok
    · cases hs
      exact hstay none
  | unbindRoute u id =>
    simp only [meshStep] at hs
    split_ifs at hs
    · cases hs
      refine h.setRoute fun d hd => ?_
      cases hd
    · cases hs
      exact hstay none
  | on u ev =>
    cases ev with
    | none =>
      cases hs
      exact hstay none
    | some ev =>
      rcases on_cases hs with ⟨rfl, rfl⟩ | ⟨c, accepted, hroute, hcall, rfl⟩
      · exact h.bystand ⟨fun _ => rfl, fun _ => rfl, by simp⟩
      · cases accepted with
        | true => exact h.routed hroute hcall
        | false =>
          refine h.bystand ⟨fun v => by rw [call_nodes hcall], fun d => ?_, by simp⟩
          rw [call_push hcall]
          simp
  | connect c fd =>
    obtain ⟨⟨m₁, f⟩, hcall, he⟩ := Option.map_eq_some_iff.mp hs
    cases he
    have hpushed := call_quiet hcall trivial
    exact h.bystand ⟨fun v => by rw [call_nodes hcall], hpushed, by simp⟩
  | callRun u =>
    simp only [meshStep] at hs
    split at hs <;> cases hs
    exact h.bystand (bystands_setRuntime m u _ (by simp))
  | stop u =>
    cases hs
    exact h.bystand (bystands_setRuntime m u _ (by simp))
  | poll u answers => exact h.bystand (nodeStep_bystands hs)

theorem mesh_invariant {ring : κ → Side → ℕ → WireFrame cfg} {staging : κ → Side → List UInt8}
    {bindings : ν → List (Binding κ)}
    (h : Exec (meshStep maxNodes target) (WellWired home nodeId target)
      (meshInit ring staging bindings) es m) : MeshInv home nodeId target es m := by
  refine h.invariant (fun es m => MeshInv home nodeId target es m) ?_ ?_
  · refine ⟨fun u id c hc => ?_, fun c => rfl, fun e he => ?_⟩
    · cases hc
    · cases he
  · intro es m a m' e hi hok hs
    exact hi.step hok hs

/-! ## What comes out of the links -/

theorem linkStep_received {l l' : Link cfg} {answers : Answers} {s : Side} {a : LinkAction cfg}
    {f : LinkEvent} (ha : PollCall answers s a) (hs : linkStep l a = some (l', f)) (t : Side) :
    ∃ rs, l'.received t = l.received t ++ rs ∧ ∀ r ∈ rs, r.made = answers.canMake := by
  cases ha with
  | recv =>
    obtain ⟨rs, hreceived, hlen, hmade⟩ := linkStep_pollRx hs
    rw [hreceived]
    by_cases ht : t = s
    · subst ht
      refine ⟨rs, by rw [Function.update_self], fun r hr => ?_⟩
      -- one `recv` completes at most one frame, and there is one answer
      obtain ⟨r', rfl⟩ : ∃ r', rs = [r'] :=
        List.length_eq_one_iff.mp (Nat.le_antisymm hlen (List.length_pos_of_mem hr))
      obtain rfl := List.mem_singleton.mp hr
      simpa using hmade
    · exact ⟨[], by rw [Function.update_of_ne ht, List.append_nil], by simp⟩
  | send =>
    cases hs
    exact ⟨[], (List.append_nil _).symm, by simp⟩
  | rebind fd =>
    simp only [linkStep] at hs
    split_ifs at hs
    cases hs
    exact ⟨[], (List.append_nil _).symm, by simp⟩

/-- A frame that a step of a polling thread completes finds an event as `make` answers. -/
theorem nodeStep_received {u : ν} {answers : Answers} (hs : nodeStep m u answers = some (m', e))
    (d : κ × Side) :
    ∃ rs, (m'.links d.1).received d.2 = (m.links d.1).received d.2 ++ rs ∧
      ∀ r ∈ rs, r.made = answers.canMake := by
  obtain ⟨-, r, ⟨rfl, -⟩ | ⟨c, a, m₁, f, ha, hcall, rfl, -⟩⟩ := nodeStep_cases hs
  · exact ⟨[], (List.append_nil _).symm, by simp⟩
  · obtain ⟨⟨l, g⟩, hl, he⟩ := Option.map_eq_some_iff.mp hcall
    cases he
    by_cases hd : d.1 = c.1
    · have hreceived := linkStep_received ha hl d.2
      simpa [Mesh.setLink, Mesh.setRuntime, hd] using hreceived
    · refine ⟨[], ?_, by simp⟩
      simp [Mesh.setLink, Mesh.setRuntime, hd]

/-- A mesh of any number of nodes, polling threads and routers at work in any order. On the way from
a conduit `c` to the node at its other end: the sink there is handed a subsequence of the events
that `on` took for `c`, in their order; on each connection the completed frames are the next ones
from where the connection was bound, and the sink is handed those of them for which an event was
made, all without a gap if one was made for each; one is made exactly if `make` succeeds in the step
that completes the frame; and what `on` took for `c` was sent by the node of `c` and is addressed to
the node at the other end. -/
theorem mesh_delivers (ring : κ → Side → ℕ → WireFrame cfg) (staging : κ → Side → List UInt8)
    (bindings : ν → List (Binding κ)) (es : List (MeshEvent ν κ cfg)) (m : Mesh ν κ cfg)
    (h : Exec (meshStep maxNodes target) (WellWired home nodeId target)
      (meshInit ring staging bindings) es m) (c : κ × Side) :
    ((m.links c.1).handedEvents c.2.peer).Sublist ((routedOver c es).map Payload.bytes) ∧
    (∀ fd, ((m.links c.1).receivedOn c.2.peer fd).map Received.payload =
        (((routedOver c es).map Payload.bytes).drop ((m.links c.1).start c.2 fd)).take
          ((m.links c.1).taken c.2 fd / cfg.frameSize) ∧
      (m.links c.1).handedOn c.2.peer fd =
        (((m.links c.1).receivedOn c.2.peer fd).filter Received.made).map Received.payload ∧
      ((∀ r ∈ (m.links c.1).receivedOn c.2.peer fd, r.made = true) →
        (m.links c.1).handedOn c.2.peer fd =
          (((routedOver c es).map Payload.bytes).drop ((m.links c.1).start c.2 fd)).take
            ((m.links c.1).taken c.2 fd / cfg.frameSize))) ∧
    (∀ u answers m' e, meshStep maxNodes target m (.poll u answers) = some (m', e) →
      ∃ rs, (m'.links c.1).received c.2.peer = (m.links c.1).received c.2.peer ++ rs ∧
        ∀ r ∈ rs, r.made = answers.canMake) ∧
    (∀ e ∈ es, ∀ u ev, e.note = .routed u ev c →
      u = home c ∧ target ev.bytes = nodeId (home (c.1, c.2.peer))) := by
  have hi := mesh_invariant h
  have hlink := h.component Mesh.links MeshEvent.link (fun _ _ _ _ hok hs => meshStep_link hok hs)
    c.1
  have hd := (link_invariant hlink).1.delivers c.2
  rw [← hi.pushed c]
  refine ⟨hd.subsequence, fun fd => ⟨hd.block fd, hd.handed fd, hd.gapless⟩, ?_, ?_⟩
  · intro u answers m' e hs
    exact nodeStep_received hs (c.1, c.2.peer)
  · intro e he u ev hn
    obtain ⟨hu, ht⟩ := hi.addressed e he u ev c hn
    exact ⟨hu.symm, ht⟩

/-- Two nodes; the one with the number 0 sends an event to the other, which drains it. -/
theorem mesh_delivers_two_nodes :
    ∃ (es : List (MeshEvent Bool Unit tinyConfig)) (m : Mesh Bool Unit tinyConfig),
      Exec (meshStep 2 fun bytes => (bytes.headD 0).toNat)
        (WellWired (fun c => decide (c.2 = .b)) (fun u => u.toNat)
          fun bytes => (bytes.headD 0).toNat)
        (meshInit (fun _ _ _ => ⟨List.replicate 64 0, rfl⟩) (fun _ _ => [])
          fun u => [⟨((), if u then .b else .a), false⟩]) es m ∧
      (routedOver ((), .a) es).map Payload.bytes = [[1]] ∧
      ((m.links ()).handedEvents .b).Sublist ((routedOver ((), .a) es).map Payload.bytes) ∧
      (m.links ()).handedOn .b 1 = [[1]] := by
  have h := exec_of_run (show run
    (meshStep 2 fun bytes => (bytes.headD 0).toNat)
    (WellWired (fun c => decide (c.2 = .b)) (fun u => u.toNat)
      fun bytes => (bytes.headD 0).toNat)
    (meshInit (fun _ _ _ => (⟨List.replicate 64 0, rfl⟩ : WireFrame tinyConfig)) (fun _ _ => [])
      fun u => [⟨((), if u then .b else .a), false⟩])
    [.connect ((), .a) 1, .connect ((), .b) 1, .bindRoute false 1 ((), .a), .callRun false,
      .callRun true, .poll false {}, .poll true {}, .on false (some ⟨[1], rfl⟩), .poll false {},
      .poll false {}, .poll false {}, .poll false { sends := [.sent 64] }, .poll true {},
      .poll true {}, .stop false, .poll true { recv := .got 60 }, .poll true { recv := .got 60 },
      .poll true {}] = some (_, _) from rfl)
  exact ⟨_, _, h, rfl, (mesh_delivers _ _ _ _ _ h ((), .a)).1, rfl⟩

end Delivery

end ConduitRuntime.Runtime
