import ConduitRuntime.Runtime.Mesh

/-! What `node_runtime::run` does over a whole run of the mesh, whatever the other nodes, the
routers and the orchestrator do in between: it visits its bindings in turn, calls each `on_dead`
once, and ends after the round in which it is stopped, if the peers let it come out of `poll_rx`. -/
namespace ConduitRuntime.Runtime
open Execution ConduitRuntime.Net
set_option autoImplicit false

section Polling
variable {ν κ : Type} {w : ℕ} {cfg : Config w} [DecidableEq ν] [DecidableEq κ]
variable {maxNodes : ℕ} {target : List UInt8 → ℕ}

/-! ## The moves of one runtime -/

/-- Who moves, from the point of view of one runtime: its own thread, the caller of its `run`, or
anybody else. -/
inductive Mover
  | thread
  | caller
  | other
  deriving DecidableEq

def MeshAction.mover (v : ν) : MeshAction ν κ cfg → Mover
  | .poll u _ => if u = v then .thread else .other
  | .callRun u => if u = v then .caller else .other
  | _ => .other

/-- What can become of the runtime of `u` in one step, with what is to be seen and who makes it. -/
inductive NodeMove (u : ν) (r : NodeRuntime κ) :
    NodeRuntime κ → MeshNote ν κ cfg → Mover → Prop
  | called (h : r.pc = .outside) : NodeMove u r { r with pc := .start } .none .caller
  | stopped : NodeMove u r { r with isRunning := false } .none .other
  | started (h : r.pc = .start) :
    NodeMove u r { r with isRunning := true, pc := .test } .none .thread
  | again (h : r.pc = .test) (hrun : r.isRunning = true) :
    NodeMove u r { r with pc := .isAlive 0 } .none .thread
  | left (h : r.pc = .test) (hrun : r.isRunning = false) :
    NodeMove u r { r with pc := .outside } (.ended u) .thread
  | round {i : ℕ} (h : r.pc = .isAlive i) (hb : r.bindings[i]? = none) :
    NodeMove u r { r with pc := .test } .none .thread
  | alive {i : ℕ} {b : Binding κ} (h : r.pc = .isAlive i) (hb : r.bindings[i]? = some b) :
    NodeMove u r { r with pc := .pollRx i } (.visited u i) .thread
  | notify {i : ℕ} {b : Binding κ} (h : r.pc = .isAlive i) (hb : r.bindings[i]? = some b)
      (hdead : b.onDead = true) : NodeMove u r { r with pc := .onDead i } (.visited u i) .thread
  | dead {i : ℕ} {b : Binding κ} (h : r.pc = .isAlive i) (hb : r.bindings[i]? = some b) :
    NodeMove u r { r with pc := .isAlive (i + 1) } (.visited u i) .thread
  | drained {i : ℕ} (h : r.pc = .pollRx i) :
    NodeMove u r { r with pc := .pollRx i } (.drained u i) .thread
  | received {i : ℕ} (h : r.pc = .pollRx i) :
    NodeMove u r { r with pc := .pollTx i } .none .thread
  | sent {i : ℕ} (h : r.pc = .pollTx i) :
    NodeMove u r { r with pc := .isAlive (i + 1) } .none .thread
  | died {i : ℕ} {b : Binding κ} (h : r.pc = .onDead i) (hb : r.bindings[i]? = some b) :
    NodeMove u r { r with bindings := r.bindings.set i { b with onDead := false },
                          pc := .isAlive (i + 1) } (.died u i) .thread

/-- The runtime of `v` and the notes about it are not concerned. -/
structure Aside (v : ν) (m m' : Mesh ν κ cfg) (note : MeshNote ν κ cfg) : Prop where
  runtime : (m'.nodes v).runtime = (m.nodes v).runtime
  visited : ∀ i, note ≠ .visited v i
  died : ∀ i, note ≠ .died v i

/-- Either the step is none of `v`'s, or its runtime makes one move. -/
def Follows (v : ν) (m m' : Mesh ν κ cfg) (note : MeshNote ν κ cfg) (who : Mover) : Prop :=
  (Aside v m m' note ∧ who = .other) ∨
    NodeMove v (m.nodes v).runtime (m'.nodes v).runtime note who

omit [DecidableEq κ] in
theorem setRuntime_self (m : Mesh ν κ cfg) (u : ν) (r : NodeRuntime κ) :
    ((m.setRuntime u r).nodes u).runtime = r := by
  simp [Mesh.setRuntime]

omit [DecidableEq κ] in
theorem setRuntime_of_ne (m : Mesh ν κ cfg) {u v : ν} (hv : v ≠ u) (r : NodeRuntime κ) :
    ((m.setRuntime u r).nodes v).runtime = (m.nodes v).runtime := by
  simp [Mesh.setRuntime, hv]

omit [DecidableEq ν] [DecidableEq κ] in
theorem NodeMove.note_ne {u v : ν} (hv : v ≠ u) {r r' : NodeRuntime κ} {note : MeshNote ν κ cfg}
    {who : Mover} (h : NodeMove u r r' note who) :
    (∀ i, note ≠ .visited v i) ∧ ∀ i, note ≠ .died v i := by
  cases h <;> simp [Ne.symm hv]

omit [DecidableEq κ] in
/-- A move of `u` is no concern of the others. -/
theorem follows_of_move {m m₁ : Mesh ν κ cfg} {u : ν} {r : NodeRuntime κ}
    {note : MeshNote ν κ cfg} {who : Mover} (hnodes : m₁.nodes = m.nodes)
    (h : NodeMove u (m.nodes u).runtime r note who) (v : ν) :
    Follows v m (m₁.setRuntime u r) note (if u = v then who else .other) := by
  by_cases hv : v = u
  · subst hv
    refine .inr ?_
    rw [setRuntime_self]
    simpa using h
  · obtain ⟨hvisited, hdied⟩ := h.note_ne hv
    refine .inl ⟨⟨?_, hvisited, hdied⟩, by simp [Ne.symm hv]⟩
    rw [setRuntime_of_ne m₁ hv, hnodes]

theorem nodeStep_moves {m m' : Mesh ν κ cfg} {e : MeshEvent ν κ cfg} {u : ν}
    {answers : Answers} (hs : nodeStep m u answers = some (m', e)) :
    ∃ (m₁ : Mesh ν κ cfg) (r : NodeRuntime κ), m' = m₁.setRuntime u r ∧ m₁.nodes = m.nodes ∧
      NodeMove u (m.nodes u).runtime r e.note .thread := by
  unfold nodeStep at hs
  dsimp only at hs
  split at hs
  · cases hs
  · rename_i hpc
    cases hs
    exact ⟨m, _, rfl, rfl, .started hpc⟩
  · rename_i hpc
    split_ifs at hs with hrun
    · cases hs
      exact ⟨m, _, rfl, rfl, .again hpc hrun⟩
    · cases hs
      exact ⟨m, _, rfl, rfl, .left hpc (by simpa using hrun)⟩
  · rename_i i hpc
    split at hs
    · rename_i hb
      cases hs
      exact ⟨m, _, rfl, rfl, .round hpc hb⟩
    · rename_i b hb
      split_ifs at hs with halive hdead
      · cases hs
        exact ⟨m, _, rfl, rfl, .alive hpc hb⟩
      · cases hs
        exact ⟨m, _, rfl, rfl, .notify hpc hb hdead⟩
      · cases hs
        exact ⟨m, _, rfl, rfl, .dead hpc hb⟩
  · rename_i i hpc
    split at hs
    · cases hs
    · obtain ⟨⟨m₁, f⟩, hc, he⟩ := Option.map_eq_some_iff.mp hs
      have hnodes := call_nodes hc
      dsimp only at he
      split_ifs at he
      · cases he
        refine ⟨m₁, _, rfl, hnodes, ?_⟩
        rw [hnodes]
        exact .drained hpc
      · cases he
        refine ⟨m₁, _, rfl, hnodes, ?_⟩
        rw [hnodes]
        exact .received hpc
  · rename_i i hpc
    split at hs
    · cases hs
    · obtain ⟨⟨m₁, f⟩, hc, he⟩ := Option.map_eq_some_iff.mp hs
      cases he
      have hnodes := call_nodes hc
      refine ⟨m₁, _, rfl, hnodes, ?_⟩
      rw [hnodes]
      exact .sent hpc
  · rename_i i hpc
    split at hs
    · cases hs
    · rename_i b hb
      split at hs
      · cases hs
        exact ⟨m, _, rfl, rfl, .died hpc hb⟩
      · obtain ⟨⟨m₁, f⟩, hc, he⟩ := Option.map_eq_some_iff.mp hs
        cases he
        exact ⟨m₁, _, rfl, call_nodes hc, .died hpc hb⟩

/-- One step of the mesh, as the runtime of `v` sees it. -/
theorem meshStep_follows {m m' : Mesh ν κ cfg} {e : MeshEvent ν κ cfg} {a : MeshAction ν κ cfg}
    (hs : meshStep maxNodes target m a = some (m', e)) (v : ν) :
    Follows v m m' e.note (a.mover v) := by
  have haside : ∀ {m₁ : Mesh ν κ cfg} {note : MeshNote ν κ cfg},
      (m₁.nodes v).runtime = (m.nodes v).runtime → (∀ i, note ≠ .visited v i) →
      (∀ i, note ≠ .died v i) → Follows v m m₁ note .other :=
    fun hr hv hd => .inl ⟨⟨hr, hv, hd⟩, rfl⟩
  cases a with
  | bindRoute u id c =>
    simp only [meshStep] at hs
    split_ifs at hs
    · cases hs
      refine haside ?_ (by simp) (by simp)
      by_cases hv : v = u <;> simp [Mesh.setRoute, hv]
    · cases hs
      exact haside rfl (by simp) (by simp)
  | unbindRoute u id =>
    simp only [meshStep] at hs
    split_ifs at hs
    · cases hs
      refine haside ?_ (by simp) (by simp)
      by_cases hv : v = u <;> simp [Mesh.setRoute, hv]
    · cases hs
      exact haside rfl (by simp) (by simp)
  | on u ev =>
    cases ev with
    | none =>
      cases hs
      exact haside rfl (by simp) (by simp)
    | some ev =>
      rcases on_cases hs with ⟨rfl, rfl⟩ | ⟨c, accepted, -, hc, rfl⟩
      · exact haside rfl (by simp) (by simp)
      · have hnodes := call_nodes hc
        cases accepted <;> exact haside (by rw [hnodes]) (by simp) (by simp)
  | connect c fd =>
    obtain ⟨⟨m₁, f⟩, hc, he⟩ := Option.map_eq_some_iff.mp hs
    cases he
    exact haside (by rw [call_nodes hc]) (by simp) (by simp)
  | callRun u =>
    simp only [meshStep] at hs
    split at hs
    · rename_i hpc
      cases hs
      exact follows_of_move rfl (.called hpc) v
    · cases hs
  | stop u =>
    cases hs
    have hmove := follows_of_move (m := m) rfl (NodeMove.stopped (u := u)) v
    rwa [ite_self] at hmove
  | poll u answers =>
    obtain ⟨m₁, r, rfl, hnodes, hmove⟩ := nodeStep_moves hs
    exact follows_of_move hnodes hmove v

/-! ## Turns -/

/-- The bindings `run` has visited, in order. -/
def visits (v : ν) (es : List (MeshEvent ν κ cfg)) : List ℕ :=
  es.filterMap fun e => match e.note with
    | .visited u i => if u = v then some i else none
    | _ => none

/-- The binding whose visit is due next. -/
def NodePc.due : NodePc → ℕ
  | .isAlive i => i
  | .pollRx i => i + 1
  | .pollTx i => i + 1
  | .onDead i => i + 1
  | _ => 0

/-- The visits so far go around; after `k` of them the binding `k % n` is due. -/
structure InTurn (n k : ℕ) (r : NodeRuntime κ) : Prop where
  length : r.bindings.length = n
  due_le : r.pc.due ≤ n
  due : k % n = r.pc.due % n

omit [DecidableEq κ] in
theorem InTurn.move {n k : ℕ} {r r' : NodeRuntime κ} {v : ν} {e : MeshEvent ν κ cfg} {who : Mover}
    (h : InTurn n k r) (hm : NodeMove v r r' e.note who) :
    (visits v [e] = [] ∧ InTurn n k r') ∨ (visits v [e] = [k % n] ∧ InTurn n (k + 1) r') := by
  obtain ⟨link, note⟩ := e
  obtain ⟨hlen, hle, hdue⟩ := h
  -- a visit of `i` is the one that was due
  have hvisit : ∀ {i : ℕ} {b : Binding κ}, r.pc = .isAlive i → r.bindings[i]? = some b →
      k % n = i ∧ i + 1 ≤ n ∧ (k + 1) % n = (i + 1) % n := by
    intro i b hpc hb
    have hlt := (List.getElem?_eq_some_iff.mp hb).1
    rw [hlen] at hlt
    rw [hpc] at hdue
    have hk : k % n = i := hdue.trans (Nat.mod_eq_of_lt hlt)
    refine ⟨hk, hlt, ?_⟩
    rw [Nat.add_mod, hk, Nat.add_mod_mod]
  cases hm with
  | called hpc =>
    rw [hpc] at hdue hle
    exact .inl ⟨rfl, hlen, hle, hdue⟩
  | stopped => exact .inl ⟨rfl, hlen, hle, hdue⟩
  | started hpc =>
    rw [hpc] at hdue hle
    exact .inl ⟨rfl, hlen, hle, hdue⟩
  | again hpc hrun =>
    rw [hpc] at hdue hle
    exact .inl ⟨rfl, hlen, hle, hdue⟩
  | left hpc hrun =>
    rw [hpc] at hdue hle
    exact .inl ⟨rfl, hlen, hle, hdue⟩
  | round hpc hb =>
    rw [hpc] at hdue hle
    have hge := List.getElem?_eq_none_iff.mp hb
    rw [hlen] at hge
    obtain rfl := Nat.le_antisymm hge hle
    refine .inl ⟨rfl, hlen, Nat.zero_le _, ?_⟩
    simpa [NodePc.due] using hdue
  | alive hpc hb =>
    obtain ⟨hk, hlt, hnext⟩ := hvisit hpc hb
    exact .inr ⟨by simp [visits, hk], hlen, hlt, hnext⟩
  | notify hpc hb hdead =>
    obtain ⟨hk, hlt, hnext⟩ := hvisit hpc hb
    exact .inr ⟨by simp [visits, hk], hlen, hlt, hnext⟩
  | dead hpc hb =>
    obtain ⟨hk, hlt, hnext⟩ := hvisit hpc hb
    exact .inr ⟨by simp [visits, hk], hlen, hlt, hnext⟩
  | drained hpc =>
    rw [hpc] at hdue hle
    exact .inl ⟨rfl, hlen, hle, hdue⟩
  | received hpc =>
    rw [hpc] at hdue hle
    exact .inl ⟨rfl, hlen, hle, hdue⟩
  | sent hpc =>
    rw [hpc] at hdue hle
    exact .inl ⟨rfl, hlen, hle, hdue⟩
  | died hpc hb =>
    rw [hpc] at hdue hle
    exact .inl ⟨rfl, by simpa using hlen, hle, hdue⟩

omit [DecidableEq κ] in
theorem visits_snoc (v : ν) (es : List (MeshEvent ν κ cfg)) (e : MeshEvent ν κ cfg) :
    visits v (es ++ [e]) = visits v es ++ visits v [e] :=
  List.filterMap_append

omit [DecidableEq κ] in
theorem visits_aside {v : ν} {e : MeshEvent ν κ cfg} (h : ∀ i, e.note ≠ .visited v i) :
    visits v [e] = [] := by
  obtain ⟨link, note⟩ := e
  cases note with
  | visited u i =>
    have hu : u ≠ v := by
      rintro rfl
      exact h i rfl
    simp [visits, hu]
  | _ => rfl

theorem turns_invariant {ring : κ → Side → ℕ → WireFrame cfg} {staging : κ → Side → List UInt8}
    {bindings : ν → List (Binding κ)} {es : List (MeshEvent ν κ cfg)} {m : Mesh ν κ cfg}
    (h : Exec (meshStep maxNodes target) (fun _ _ => True) (meshInit ring staging bindings) es m)
    (v : ν) :
    InTurn (bindings v).length (visits v es).length (m.nodes v).runtime ∧
      visits v es = (List.range (visits v es).length).map (· % (bindings v).length) := by
  refine h.invariant (fun es m =>
    InTurn (bindings v).length (visits v es).length (m.nodes v).runtime ∧
    visits v es = (List.range (visits v es).length).map (· % (bindings v).length)) ?_ ?_
  · exact ⟨⟨rfl, Nat.zero_le _, rfl⟩, rfl⟩
  · rintro es m a m' e ⟨hturn, hseq⟩ - hs
    rw [visits_snoc]
    rcases meshStep_follows hs v with ⟨haside, -⟩ | hmove
    · rw [visits_aside haside.visited, List.append_nil, haside.runtime]
      exact ⟨hturn, hseq⟩
    · rcases hturn.move hmove with ⟨hnone, hturn'⟩ | ⟨hone, hturn'⟩
      · rw [hnone, List.append_nil]
        exact ⟨hturn', hseq⟩
      · rw [hone, List.length_append, List.length_singleton, List.range_succ, List.map_append,
          ← hseq]
        exact ⟨hturn', rfl⟩

/-- Whatever else goes on, and however often it is started and stopped, `run` visits its bindings in
their order, around and around, without leaving any out. -/
theorem polled_in_turn (ring : κ → Side → ℕ → WireFrame cfg) (staging : κ → Side → List UInt8)
    (bindings : ν → List (Binding κ)) (es : List (MeshEvent ν κ cfg)) (m : Mesh ν κ cfg)
    (h : Exec (meshStep maxNodes target) (fun _ _ => True) (meshInit ring staging bindings) es m)
    (v : ν) :
    visits v es = (List.range (visits v es).length).map (· % (bindings v).length) :=
  (turns_invariant h v).2

/-- A node with two bindings, both dead: three visits. -/
theorem polled_in_turn_three :
    ∃ (es : List (MeshEvent Unit Unit tinyConfig)) (m : Mesh Unit Unit tinyConfig),
      Exec (meshStep 1 fun _ => 0) (fun _ _ => True)
        (meshInit (fun _ _ _ => ⟨List.replicate 64 0, rfl⟩) (fun _ _ => [])
          fun _ => [⟨((), .a), false⟩, ⟨((), .b), false⟩]) es m ∧
      visits () es = [0, 1, 0] ∧
      visits () es = (List.range (visits () es).length).map (· % 2) := by
  have h := exec_of_run (show run (meshStep 1 fun _ => 0) (fun _ _ => True)
    (meshInit (fun _ _ _ => (⟨List.replicate 64 0, rfl⟩ : WireFrame tinyConfig)) (fun _ _ => [])
      fun _ => [⟨((), .a), false⟩, ⟨((), .b), false⟩])
    [.callRun (), .poll () {}, .poll () {}, .poll () {}, .poll () {}, .poll () {}, .poll () {},
      .poll () {}] = some (_, _) from rfl)
  exact ⟨_, _, h, rfl, polled_in_turn _ _ _ _ _ h ()⟩

/-! ## Dead conduits -/

/-- How often `on_dead` of the binding `i` has been called. -/
def deaths (v : ν) (i : ℕ) (es : List (MeshEvent ν κ cfg)) : ℕ :=
  es.countP fun e => match e.note with
    | .died u j => u = v ∧ j = i
    | _ => false

/-- `on_dead` of the binding `i` is set. -/
def armed (bindings : List (Binding κ)) (i : ℕ) : Bool :=
  (bindings[i]?.map Binding.onDead).getD false

/-- The thread is about to call an `on_dead` only if it is set. -/
def ArmedPc (r : NodeRuntime κ) : Prop := ∀ i, r.pc = .onDead i → armed r.bindings i = true

omit [DecidableEq κ] in
theorem deaths_snoc (v : ν) (i : ℕ) (es : List (MeshEvent ν κ cfg)) (e : MeshEvent ν κ cfg) :
    deaths v i (es ++ [e]) = deaths v i es + deaths v i [e] :=
  List.countP_append

omit [DecidableEq κ] in
theorem deaths_aside {v : ν} {e : MeshEvent ν κ cfg} (h : ∀ i, e.note ≠ .died v i) (i : ℕ) :
    deaths v i [e] = 0 := by
  obtain ⟨link, note⟩ := e
  cases note with
  | died u j =>
    have hu : u ≠ v := by
      rintro rfl
      exact h j rfl
    simp [deaths, hu]
  | _ => rfl

omit [DecidableEq κ] in
/-- Only the call itself resets an `on_dead`, and it was set. -/
theorem ArmedPc.move {r r' : NodeRuntime κ} {v : ν} {e : MeshEvent ν κ cfg} {who : Mover}
    (h : ArmedPc r) (hm : NodeMove v r r' e.note who) :
    ArmedPc r' ∧ ∀ i, deaths v i [e] + (armed r'.bindings i).toNat =
      (armed r.bindings i).toNat := by
  obtain ⟨link, note⟩ := e
  cases hm with
  | stopped => exact ⟨h, fun i => Nat.zero_add _⟩
  | notify hpc hb hdead =>
    refine ⟨?_, fun i => Nat.zero_add _⟩
    intro j hj
    cases hj
    simpa [armed, hb] using hdead
  | @died i b hpc hb =>
    refine ⟨fun j hj => (by cases hj), fun j => ?_⟩
    have hlt := (List.getElem?_eq_some_iff.mp hb).1
    by_cases hj : j = i
    · subst hj
      have hset := h j hpc
      rw [hset]
      simp [deaths, armed, hlt]
    · have hij : i ≠ j := Ne.symm hj
      simp [deaths, armed, hij]
  | _ => exact ⟨fun j hj => (by cases hj), fun i => Nat.zero_add _⟩

/-- Each `on_dead` that was set is called or still set, and not both: a callback is called once at
most, in all the runs together. -/
theorem on_dead_once (ring : κ → Side → ℕ → WireFrame cfg) (staging : κ → Side → List UInt8)
    (bindings : ν → List (Binding κ)) (es : List (MeshEvent ν κ cfg)) (m : Mesh ν κ cfg)
    (h : Exec (meshStep maxNodes target) (fun _ _ => True) (meshInit ring staging bindings) es m)
    (v : ν) (i : ℕ) :
    deaths v i es + (armed (m.nodes v).runtime.bindings i).toNat =
      (armed (bindings v) i).toNat := by
  have hboth : ArmedPc (m.nodes v).runtime ∧
      deaths v i es + (armed (m.nodes v).runtime.bindings i).toNat =
        (armed (bindings v) i).toNat := by
    refine h.invariant (fun es m => ArmedPc (m.nodes v).runtime ∧
      deaths v i es + (armed (m.nodes v).runtime.bindings i).toNat =
        (armed (bindings v) i).toNat) ?_ ?_
    · exact ⟨fun j hj => (by cases hj), Nat.zero_add _⟩
    · rintro es m a m' e ⟨hpc, hcount⟩ - hs
      rw [deaths_snoc]
      rcases meshStep_follows hs v with ⟨haside, -⟩ | hmove
      · rw [deaths_aside haside.died, haside.runtime]
        exact ⟨hpc, hcount⟩
      · obtain ⟨hpc', hmoved⟩ := hpc.move hmove
        refine ⟨hpc', ?_⟩
        rw [Nat.add_assoc, hmoved i]
        exact hcount
  exact hboth.2

/-- The conduit of the only binding is dead over two visits. -/
theorem on_dead_once_two_visits :
    ∃ (es : List (MeshEvent Unit Unit tinyConfig)) (m : Mesh Unit Unit tinyConfig),
      Exec (meshStep 1 fun _ => 0) (fun _ _ => True)
        (meshInit (fun _ _ _ => ⟨List.replicate 64 0, rfl⟩) (fun _ _ => [])
          fun _ => [⟨((), .a), true⟩]) es m ∧
      visits () es = [0, 0] ∧
      deaths () 0 es + (armed (m.nodes ()).runtime.bindings 0).toNat = 1 := by
  have h := exec_of_run (show run (meshStep 1 fun _ => 0) (fun _ _ => True)
    (meshInit (fun _ _ _ => (⟨List.replicate 64 0, rfl⟩ : WireFrame tinyConfig)) (fun _ _ => [])
      fun _ => [⟨((), .a), true⟩])
    [.callRun (), .poll () {}, .poll () {}, .poll () {}, .poll () {}, .poll () {}, .poll () {},
      .poll () {}] = some (_, _) from rfl)
  exact ⟨_, _, h, rfl, on_dead_once _ _ _ _ _ h () 0⟩

/-! ## Stopping -/

/-- The mesh, with who moves as `v` sees it. -/
def watchedStep (maxNodes : ℕ) (target : List UInt8 → ℕ) (v : ν) (m : Mesh ν κ cfg)
    (a : MeshAction ν κ cfg) : Option (Mesh ν κ cfg × Mover × MeshEvent ν κ cfg) :=
  (meshStep maxNodes target m a).map fun r => (r.1, a.mover v, r.2)

def ownAccesses (es : List (Mover × MeshEvent ν κ cfg)) : ℕ := es.countP (·.1 = .thread)

/-- The `recv` calls of `v` that gave bytes. -/
def drained (v : ν) (es : List (Mover × MeshEvent ν κ cfg)) : ℕ :=
  es.countP fun e => match e.2.note with
    | .drained u _ => u = v
    | _ => false

/-- The visits left in the round the thread is in. -/
def NodePc.visitsLeft (n : ℕ) : NodePc → ℕ
  | .isAlive i => n - i
  | .pollRx i => n - (i + 1)
  | .pollTx i => n - (i + 1)
  | .onDead i => n - (i + 1)
  | _ => 0

/-- A bound on the accesses left when `is_running_` is false, but for `recv` calls that give bytes:
three for a visit. -/
def NodePc.accessesLeft (n : ℕ) (pc : NodePc) : ℕ :=
  3 * pc.visitsLeft n + match pc with
    | .outside => 0
    | .start => 0
    | .test => 1
    | .isAlive _ => 2
    | .pollRx _ => 4
    | .pollTx _ => 3
    | .onDead _ => 3

/-- `stop` was called after `run` had set `is_running_`. -/
structure Stopping (n : ℕ) (r : NodeRuntime κ) : Prop where
  length : r.bindings.length = n
  isRunning : r.isRunning = false
  entered : r.pc ≠ .start

omit [DecidableEq κ] in
theorem Stopping.move {n : ℕ} {r r' : NodeRuntime κ} {v : ν} {e : MeshEvent ν κ cfg} {who : Mover}
    (h : Stopping n r) (hm : NodeMove v r r' e.note who) (hwho : who ≠ .caller) :
    Stopping n r' ∧ ownAccesses [(who, e)] + r'.pc.accessesLeft n ≤
        r.pc.accessesLeft n + drained v [(who, e)] ∧
      (visits v [e]).length + r'.pc.visitsLeft n ≤ r.pc.visitsLeft n := by
  obtain ⟨link, note⟩ := e
  obtain ⟨hlen, hrun, hentered⟩ := h
  have hlt : ∀ {i : ℕ} {b : Binding κ}, r.bindings[i]? = some b → i < n :=
    fun hb => hlen ▸ (List.getElem?_eq_some_iff.mp hb).1
  cases hm with
  | called hpc => exact absurd rfl hwho
  | stopped => exact ⟨⟨hlen, rfl, hentered⟩, by simp [ownAccesses, drained], by simp [visits]⟩
  | started hpc => exact absurd hpc hentered
  | again hpc hrun' =>
    rw [hrun] at hrun'
    cases hrun'
  | left hpc _ =>
    refine ⟨⟨hlen, hrun, by simp⟩, ?_, ?_⟩
    · simp [ownAccesses, hpc, NodePc.accessesLeft, NodePc.visitsLeft]
    · simp [visits, hpc, NodePc.visitsLeft]
  | round hpc hb =>
    refine ⟨⟨hlen, hrun, by simp⟩, ?_, ?_⟩
    · simp [ownAccesses, hpc, NodePc.accessesLeft, NodePc.visitsLeft]
      omega
    · simp [visits, hpc, NodePc.visitsLeft]
  | drained hpc =>
    refine ⟨⟨hlen, hrun, by simp⟩, ?_, ?_⟩
    · simp [ownAccesses, Runtime.drained, hpc]
      omega
    · simp [visits, hpc, NodePc.visitsLeft]
  | received hpc =>
    refine ⟨⟨hlen, hrun, by simp⟩, ?_, ?_⟩
    · simp [ownAccesses, hpc, NodePc.accessesLeft, NodePc.visitsLeft]
      omega
    · simp [visits, hpc, NodePc.visitsLeft]
  | sent hpc =>
    refine ⟨⟨hlen, hrun, by simp⟩, ?_, ?_⟩
    · simp [ownAccesses, hpc, NodePc.accessesLeft, NodePc.visitsLeft]
      omega
    · simp [visits, hpc, NodePc.visitsLeft]
  | died hpc hb =>
    refine ⟨⟨by simpa using hlen, hrun, by simp⟩, ?_, ?_⟩
    · simp [ownAccesses, hpc, NodePc.accessesLeft, NodePc.visitsLeft]
      omega
    · simp [visits, hpc, NodePc.visitsLeft]
  | alive hpc hb =>
    have hi := hlt hb
    refine ⟨⟨hlen, hrun, by simp⟩, ?_, ?_⟩
    · simp [ownAccesses, hpc, NodePc.accessesLeft, NodePc.visitsLeft]
      omega
    · simp [visits, hpc, NodePc.visitsLeft]
      omega
  | notify hpc hb hdead =>
    have hi := hlt hb
    refine ⟨⟨hlen, hrun, by simp⟩, ?_, ?_⟩
    · simp [ownAccesses, hpc, NodePc.accessesLeft, NodePc.visitsLeft]
      omega
    · simp [visits, hpc, NodePc.visitsLeft]
      omega
  | dead hpc hb =>
    have hi := hlt hb
    refine ⟨⟨hlen, hrun, by simp⟩, ?_, ?_⟩
    · simp [ownAccesses, hpc, NodePc.accessesLeft, NodePc.visitsLeft]
      omega
    · simp [visits, hpc, NodePc.visitsLeft]
      omega

theorem watched_exec {v : ν} {ok : Mesh ν κ cfg → MeshAction ν κ cfg → Prop} {m m' : Mesh ν κ cfg}
    {fs : List (Mover × MeshEvent ν κ cfg)}
    (h : Exec (watchedStep maxNodes target v) ok m fs m') :
    Exec (meshStep maxNodes target) (fun _ _ => True) m (fs.map Prod.snd) m' := by
  induction h with
  | nil => exact .nil
  | snoc _ hok hs ih =>
    obtain ⟨⟨m₁, e⟩, hs', he⟩ := Option.map_eq_some_iff.mp hs
    cases he
    rw [List.map_append]
    exact ih.snoc trivial hs'

theorem stopping_invariant {n : ℕ} {v : ν} {m m' : Mesh ν κ cfg}
    {fs : List (Mover × MeshEvent ν κ cfg)} (hm : Stopping n (m.nodes v).runtime)
    (h : Exec (watchedStep maxNodes target v) (fun _ a => a.mover v ≠ .caller) m fs m') :
    Stopping n (m'.nodes v).runtime ∧
      ownAccesses fs + (m'.nodes v).runtime.pc.accessesLeft n ≤
        (m.nodes v).runtime.pc.accessesLeft n + drained v fs ∧
      (visits v (fs.map Prod.snd)).length + (m'.nodes v).runtime.pc.visitsLeft n ≤
        (m.nodes v).runtime.pc.visitsLeft n := by
  induction h with
  | nil => exact ⟨hm, by simp [ownAccesses], by simp [visits]⟩
  | @snoc fs m₁ m₂ a f _ hok hs ih =>
    obtain ⟨⟨m₃, e⟩, hs', he⟩ := Option.map_eq_some_iff.mp hs
    cases he
    obtain ⟨hstop, hown, hleft⟩ := ih
    dsimp only
    have hsplit : ownAccesses (fs ++ [(a.mover v, e)]) =
        ownAccesses fs + ownAccesses [(a.mover v, e)] := List.countP_append
    have hdrained : drained v (fs ++ [(a.mover v, e)]) =
        drained v fs + drained v [(a.mover v, e)] := List.countP_append
    rw [hsplit, hdrained, List.map_append, List.map_singleton, visits_snoc, List.length_append]
    rcases meshStep_follows hs' v with ⟨haside, hother⟩ | hmove
    · rw [haside.runtime, visits_aside haside.visited, hother]
      have hnone : ownAccesses [(Mover.other, e)] = 0 := rfl
      exact ⟨hstop, by omega, hleft⟩
    · obtain ⟨hstop', hown', hleft'⟩ := hstop.move hmove hok
      dsimp only at hleft' ⊢
      exact ⟨hstop', by omega, by omega⟩

/-- Inside `run` the thread can always go on. -/
theorem nodeStep_isSome {n k : ℕ} {v : ν} {m : Mesh ν κ cfg}
    (h : InTurn n k (m.nodes v).runtime) (hin : (m.nodes v).runtime.pc ≠ .outside)
    {answers : Answers} (hrebind : answers.rebind = none) :
    (nodeStep m v answers).isSome := by
  obtain ⟨hlen, hle, -⟩ := h
  have hbinding : ∀ {i : ℕ}, i + 1 ≤ n → ∃ b, (m.nodes v).runtime.bindings[i]? = some b :=
    fun hi => ⟨_, List.getElem?_eq_getElem (hlen ▸ hi)⟩
  cases hpc : (m.nodes v).runtime.pc with
  | outside => exact absurd hpc hin
  | start => simp [nodeStep, hpc]
  | test =>
    by_cases hrun : (m.nodes v).runtime.isRunning = true <;> simp [nodeStep, hpc, hrun]
  | isAlive i =>
    cases hb : (m.nodes v).runtime.bindings[i]? with
    | none => simp [nodeStep, hpc, hb]
    | some b =>
      by_cases halive : m.isAlive b.conduit = true <;> by_cases hdead : b.onDead = true <;>
        simp [nodeStep, hpc, hb, halive, hdead]
  | pollRx i =>
    obtain ⟨b, hb⟩ := hbinding (hpc ▸ hle)
    simp [nodeStep, hpc, hb, Mesh.call, linkStep]
  | pollTx i =>
    obtain ⟨b, hb⟩ := hbinding (hpc ▸ hle)
    simp [nodeStep, hpc, hb, Mesh.call, linkStep]
  | onDead i =>
    obtain ⟨b, hb⟩ := hbinding (hpc ▸ hle)
    simp [nodeStep, hpc, hb, hrebind]

theorem NodePc.accessesLeft_le (n : ℕ) (pc : NodePc) (h : pc.due ≤ n) :
    pc.accessesLeft n ≤ 3 * n + 2 ∧ pc.visitsLeft n ≤ n := by
  cases pc <;> simp only [accessesLeft, visitsLeft, due] at h ⊢ <;> omega

/-- Once `stop` is called on a running node, its thread is never stuck inside `run` and makes at
most the visits that are left in its round; with at most three accesses for each of them and two
more it is outside, not counting the `recv` calls that give bytes, of which there are as many as the
peers make there be. -/
theorem node_stops (ring : κ → Side → ℕ → WireFrame cfg) (staging : κ → Side → List UInt8)
    (bindings : ν → List (Binding κ)) (es : List (MeshEvent ν κ cfg)) (m : Mesh ν κ cfg)
    (h : Exec (meshStep maxNodes target) (fun _ _ => True) (meshInit ring staging bindings) es m)
    (v : ν) (hstop : (m.nodes v).runtime.isRunning = false)
    (hentered : (m.nodes v).runtime.pc ≠ .start) (fs : List (Mover × MeshEvent ν κ cfg))
    (m' : Mesh ν κ cfg)
    (h' : Exec (watchedStep maxNodes target v) (fun _ a => a.mover v ≠ .caller) m fs m') :
    ownAccesses fs ≤ 3 * (bindings v).length + 2 + drained v fs ∧
    (visits v (fs.map Prod.snd)).length ≤ (bindings v).length ∧
    ((m'.nodes v).runtime.pc ≠ .outside →
      ownAccesses fs < 3 * (bindings v).length + 2 + drained v fs ∧
      ∀ answers, answers.rebind = none →
        (meshStep maxNodes target m' (.poll v answers)).isSome) := by
  have hturn := (turns_invariant h v).1
  obtain ⟨hstop', hown, hleft⟩ := stopping_invariant ⟨hturn.length, hstop, hentered⟩ h'
  obtain ⟨hbound, hvisits⟩ := NodePc.accessesLeft_le _ _ hturn.due_le
  refine ⟨by omega, by omega, fun hin => ⟨?_, fun answers hrebind => ?_⟩⟩
  · have hpos : 0 < (m'.nodes v).runtime.pc.accessesLeft (bindings v).length := by
      cases hpc : (m'.nodes v).runtime.pc with
      | outside => exact absurd hpc hin
      | start => exact absurd hpc hstop'.entered
      | _ => simp [NodePc.accessesLeft]
    omega
  · exact nodeStep_isSome (turns_invariant (h.trans (watched_exec h')) v).1 hin hrebind

/-- Two nodes, each with one binding, at the ends of one link. -/
def pairInit : Mesh Bool Unit tinyConfig :=
  meshInit (fun _ _ _ => ⟨List.replicate 64 0, rfl⟩) (fun _ _ => [])
    fun u => [⟨((), if u then .b else .a), false⟩]

def pairStart : List (MeshAction Bool Unit tinyConfig) :=
  [.callRun false, .connect ((), .a) 1, .connect ((), .b) 1, .poll false {}, .poll false {},
    .poll false {}, .stop false, .bindRoute true 0 ((), .b), .on true (some ⟨[7], rfl⟩),
    .callRun true, .poll true {}, .poll true {}, .poll true {}, .poll true {}]

/-- The first has been stopped inside `poll_rx`, the second is about to send. -/
def pairStopped : Mesh Bool Unit tinyConfig :=
  ((run (meshStep 2 fun _ => 0) (fun _ _ => True) pairInit pairStart).map Prod.snd).getD pairInit

/-- The frame arrives in two parts, and the stopped node takes both before it comes out. -/
theorem node_stops_in_round :
    ∃ (es : List (MeshEvent Bool Unit tinyConfig))
      (fs : List (Mover × MeshEvent Bool Unit tinyConfig)) (m' : Mesh Bool Unit tinyConfig),
      Exec (meshStep 2 fun _ => 0) (fun _ _ => True) pairInit es pairStopped ∧
      Exec (watchedStep 2 (fun _ => 0) false) (fun _ a => a.mover false ≠ .caller) pairStopped fs
        m' ∧
      drained false fs = 2 ∧ ownAccesses fs = 6 ∧ (m'.nodes false).runtime.pc = .outside ∧
      ownAccesses fs ≤ 5 + drained false fs ∧ (visits false (fs.map Prod.snd)).length ≤ 1 := by
  have h := exec_of_run (show run (meshStep 2 fun _ => 0) (fun _ _ => True) pairInit pairStart =
    some (_, pairStopped) from rfl)
  have h' := exec_of_run (show
    run (watchedStep 2 (fun _ => 0) false) (fun _ a => a.mover false ≠ .caller) pairStopped
      [.poll true { sends := [.sent 64] }, .poll false { recv := .got 30 },
        .poll false { recv := .got 34 }, .poll false {}, .poll false {}, .poll false {},
        .poll false {}] = some (_, _) from rfl)
  obtain ⟨hown, hvisits, -⟩ := node_stops _ _ _ _ _ h false rfl
    (show NodePc.pollRx 0 ≠ .start by simp) _ _ h'
  exact ⟨_, _, _, h, h', rfl, rfl, rfl, hown, hvisits⟩

end Polling

end ConduitRuntime.Runtime
