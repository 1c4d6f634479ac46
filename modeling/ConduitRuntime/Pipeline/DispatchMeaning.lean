import ConduitRuntime.Foundations.ShortCircuit
import ConduitRuntime.Pipeline.Dispatch

/-! What a dispatch means: one list of calls, handler by handler and each in post-order over the
type tree, executed from the left until a call returns false or leaves its pointer null. -/
namespace ConduitRuntime.Pipeline
open Memory ShortCircuit
set_option autoImplicit false

variable {σ A C H T : Type}

/-! ## The reference run -/

mutual
/-- All base subtrees from left to right, then the type itself. -/
def postOrder : TypeTree T → List T
  | .node type bases => postOrderBases bases ++ [type]
def postOrderBases : List (TypeTree T) → List T
  | [] => []
  | t :: ts => postOrder t ++ postOrderBases ts
end

/-- The calls a dispatch would make if none stopped it. -/
def referenceCalls (P : Handlers σ A C H T) (tree : TypeTree T) (handlers : List H) :
    List (H × T) :=
  handlers.flatMap fun h =>
    ((postOrder tree).filter fun t => (P.on h t).isSome).map fun t => (h, t)

/-- The call returned true and left its pointer alive. -/
def Call.goesOn (c : Call A H T) : Bool := c.returned && !c.leftNull

/-- The calls `made` are the list `cs` up to and including the first call that does not go on. -/
structure Executed (cs : List (H × T)) (made : List (Call A H T)) : Prop where
  initial : (made.map fun c => (c.handler, c.type)) <+: cs
  goOn : ∀ c ∈ made.dropLast, c.goesOn = true
  complete : (made.map fun c => (c.handler, c.type)) = cs ∨
    ∃ c, made.getLast? = some c ∧ c.goesOn = false

section Reference
variable (P : Handlers σ A C H T) [DecidableEq T]

/-- One call of the reference run: on the event itself for the event's own type, on a view of it
otherwise. An event whose view was left null is gone. The answer is whether the run goes on. -/
def referenceCall (event : T) (c : H × T) (s : Run σ A C H T) : Run σ A C H T × Bool :=
  match P.on c.1 c.2 with
  | none => (s, true)
  | some f =>
    let arg := if event = c.2 then s.ev else s.ev.nonOwning
    let (w, p, returned) := f s.world arg
    let made := s.calls ++ [⟨c.1, c.2, arg.ptr, returned, p.ptr.isNone⟩]
    (if event = c.2 then ⟨w, p, made⟩
      else ⟨destroy P w p, if p.ptr.isNone then s.ev.cleared else s.ev, made⟩,
      returned && p.ptr.isSome)

def referenceRun (event : T) (cs : List (H × T)) (s : Run σ A C H T) : Run σ A C H T :=
  (all (cs.map (referenceCall P event)) s).1

end Reference

/-! ## Single calls -/

section Single
variable (P : Handlers σ A C H T)

theorem destroy_nonOwning (w : σ) (p : EventPtr A C) : destroy P w p.nonOwning = w := by
  simp [destroy, EventPtr.reset]

variable [DecidableEq T] {event : T} {h : H}

theorem referenceCall_none {c : H × T} (hc : P.on c.1 c.2 = none) (s : Run σ A C H T) :
    referenceCall P event c s = (s, true) := by
  simp [referenceCall, hc]

/-- A call that lets the run go on leaves the event alive. -/
theorem referenceCall_alive {c : H × T} {s s' : Run σ A C H T} (hs : s.ev.ptr ≠ none)
    (hc : referenceCall P event c s = (s', true)) : s'.ev.ptr ≠ none := by
  cases hon : P.on c.1 c.2 with
  | none =>
    rw [referenceCall_none P hon] at hc
    cases hc
    exact hs
  | some f =>
    simp only [referenceCall, hon] at hc
    obtain ⟨hrun, hgo⟩ := Prod.mk.inj hc
    obtain ⟨_, halive⟩ := Bool.and_eq_true_iff.mp hgo
    by_cases hev : event = c.2
    · simp only [hev, if_true] at hrun halive
      rw [← hrun]
      exact Option.isSome_iff_ne_none.mp halive
    · simp only [hev, if_false] at hrun halive
      rw [← hrun]
      simpa [Option.isNone_eq_false_iff.mpr halive] using hs

/-- The end of `traverse_and_call`, once the bases are done and the event is alive. -/
theorem traverse_self {t : T} (bases : List (TypeTree T)) {s s' : Run σ A C H T}
    (hb : traverseBases P h event bases s = (s', true)) (halive : s'.ev.ptr ≠ none) :
    traverseAndCall P h event (.node t bases) s = referenceCall P event (h, t) s' := by
  have hsome : s'.ev.ptr.isSome = true := Option.isSome_iff_ne_none.mpr halive
  simp only [traverseAndCall, hb, hsome, Bool.and_self, if_true]
  cases hon : P.on h t with
  | none =>
    by_cases hev : event = t
    · simp [callOnIfExists, referenceCall, hon, hev, hsome]
    · have hnull : s'.ev.ptr.isNone = false := Option.isNone_eq_false_iff.mpr hsome
      simp [callOnIfExists, referenceCall, hon, hev, hsome, hnull, destroy_nonOwning]
  | some f =>
    by_cases hev : event = t
    · simp [callOnIfExists, referenceCall, hon, hev]
    · cases hp : (f s'.world s'.ev.nonOwning).2.1.ptr with
      | none => simp [callOnIfExists, referenceCall, hon, hev, hp, EventPtr.release]
      | some a => simp [callOnIfExists, referenceCall, hon, hev, hp, hsome]

theorem traverse_stopped {t : T} (bases : List (TypeTree T)) {s s' : Run σ A C H T}
    (hb : traverseBases P h event bases s = (s', false)) :
    traverseAndCall P h event (.node t bases) s = (s', false) := by
  simp [traverseAndCall, hb]

theorem all_alive {cs : List (H × T)} {s s' : Run σ A C H T} (hs : s.ev.ptr ≠ none)
    (hall : all (cs.map (referenceCall P event)) s = (s', true)) : s'.ev.ptr ≠ none := by
  refine all_invariant (I := fun s => s.ev.ptr ≠ none) (fun f hf s s' hs hfs => ?_) hs hall
  obtain ⟨c, _, rfl⟩ := List.mem_map.mp hf
  exact referenceCall_alive P hs hfs

end Single

/-! ## Whole traversals -/

section Traversal
variable (P : Handlers σ A C H T) [DecidableEq T] (event : T) (h : H)

/-- The calls of one handler for a list of types. -/
def stepsOf (ts : List T) : List (Run σ A C H T → Run σ A C H T × Bool) :=
  (ts.map fun t => (h, t)).map (referenceCall P event)

theorem stepsOf_append (ts us : List T) :
    stepsOf P event h (ts ++ us) = stepsOf P event h ts ++ stepsOf P event h us := by
  simp [stepsOf]

mutual
theorem traverse_eq (t : TypeTree T) {s : Run σ A C H T} (hs : s.ev.ptr ≠ none) :
    traverseAndCall P h event t s = all (stepsOf P event h (postOrder t)) s := by
  cases t with
  | node type bases =>
    have hb := traverseBases_eq bases hs
    rw [postOrder, stepsOf_append, all_append]
    rcases hr : all (stepsOf P event h (postOrderBases bases)) s with ⟨s', _ | _⟩
    · rw [hr] at hb
      rw [andThen_of_false hr, traverse_stopped P bases hb]
    · rw [hr] at hb
      have halive := all_alive P hs hr
      rw [andThen_of_true hr, traverse_self P bases hb halive]
      rcases hc : referenceCall P event (h, type) s' with ⟨s'', _ | _⟩ <;>
        simp [stepsOf, all, andThen, hc]
theorem traverseBases_eq (ts : List (TypeTree T)) {s : Run σ A C H T} (hs : s.ev.ptr ≠ none) :
    traverseBases P h event ts s = all (stepsOf P event h (postOrderBases ts)) s := by
  cases ts with
  | nil => rfl
  | cons t ts =>
    have ht := traverse_eq t hs
    rw [postOrderBases, stepsOf_append, all_append]
    rcases hr : all (stepsOf P event h (postOrder t)) s with ⟨s', _ | _⟩
    · rw [hr] at ht
      rw [andThen_of_false hr]
      simp [traverseBases, ht]
    · rw [hr] at ht
      have halive := all_alive P hs hr
      rw [andThen_of_true hr, ← traverseBases_eq ts halive]
      simp [traverseBases, ht, Option.isSome_iff_ne_none.mpr halive]
end

end Traversal

section Meaning
variable (P : Handlers σ A C H T)

theorem mem_referenceCalls {tree : TypeTree T} {handlers : List H} {c : H × T}
    (h : c ∈ referenceCalls P tree handlers) : (P.on c.1 c.2).isSome := by
  obtain ⟨h', _, hc⟩ := List.mem_flatMap.mp h
  obtain ⟨t, ht, rfl⟩ := List.mem_map.mp hc
  exact (List.mem_filter.mp ht).2

variable [DecidableEq T]

theorem dispatchAll_eq (tree : TypeTree T) (handlers : List H) {s : Run σ A C H T}
    (hs : s.ev.ptr ≠ none) : dispatchAll P tree handlers s =
      all ((referenceCalls P tree handlers).map (referenceCall P tree.root)) s := by
  induction handlers generalizing s with
  | nil => rfl
  | cons h hs' ih =>
    have hfilter : all (((postOrder tree).filter fun t => (P.on h t).isSome).map
        fun t => referenceCall P tree.root (h, t)) s =
        all ((postOrder tree).map fun t => referenceCall P tree.root (h, t)) s := by
      refine all_filter _ _ (fun t ht s => ?_) _ _
      exact referenceCall_none P (by simpa using ht) s
    have ht := traverse_eq P tree.root h tree hs
    simp only [stepsOf, List.map_map] at ht
    simp only [referenceCalls, List.flatMap_cons, List.map_append, List.map_map, all_append]
    simp only [referenceCalls, Function.comp_def] at ih ht ⊢
    rcases hr : all ((postOrder tree).map fun t => referenceCall P tree.root (h, t)) s with
      ⟨s', _ | _⟩
    · rw [andThen_of_false (hfilter.trans hr)]
      simp [dispatchAll, ht, hr]
    · have hr' : all (((postOrder tree).map fun t => (h, t)).map (referenceCall P tree.root)) s =
          (s', true) := by
        simpa [Function.comp_def] using hr
      have halive := all_alive P hs hr'
      rw [andThen_of_true (hfilter.trans hr), ← ih halive]
      simp [dispatchAll, ht, hr]

theorem referenceCall_made (event : T) {c : H × T} (hon : (P.on c.1 c.2).isSome)
    (s : Run σ A C H T) : ∃ call : Call A H T, (call.handler, call.type) = c ∧
      (referenceCall P event c s).1.calls = s.calls ++ [call] ∧
      (referenceCall P event c s).2 = call.goesOn ∧
      (s.ev.ptr ≠ none → ((referenceCall P event c s).1.ev.ptr = none ↔ call.leftNull = true)) := by
  obtain ⟨f, hf⟩ := Option.isSome_iff_exists.mp hon
  obtain ⟨arg, harg⟩ : ∃ arg, arg = if event = c.2 then s.ev else s.ev.nonOwning := ⟨_, rfl⟩
  refine ⟨⟨c.1, c.2, arg.ptr, (f s.world arg).2.2, (f s.world arg).2.1.ptr.isNone⟩, rfl, ?_, ?_,
    fun hs => ?_⟩
  · simp only [referenceCall, hf, ← harg]
    split <;> rfl
  · simp [referenceCall, hf, ← harg, Call.goesOn]
  · simp only [referenceCall, hf, ← harg]
    by_cases hev : event = c.2
    · simp [hev]
    · cases (f s.world arg).2.1.ptr <;> simp [hev, hs]

/-- The calls a run adds, and what its last one says about the event. -/
theorem all_made (event : T) {cs : List (H × T)} (hon : ∀ c ∈ cs, (P.on c.1 c.2).isSome)
    {s : Run σ A C H T} (hs : s.ev.ptr ≠ none) :
    ∃ made : List (Call A H T),
      (all (cs.map (referenceCall P event)) s).1.calls = s.calls ++ made ∧ Executed cs made ∧
      ((all (cs.map (referenceCall P event)) s).1.ev.ptr = none ↔
        ∃ c, made.getLast? = some c ∧ c.leftNull = true) := by
  induction cs generalizing s with
  | nil => exact ⟨[], by simp [all], ⟨by simp, by simp, .inl rfl⟩, by simpa [all] using hs⟩
  | cons c cs ih =>
    obtain ⟨call, hkey, hcalls, hgo, hnull⟩ := referenceCall_made P event (hon c (by simp)) s
    rcases hr : referenceCall P event c s with ⟨s', _ | _⟩
    · rw [hr] at hcalls hgo hnull
      have hall : all ((c :: cs).map (referenceCall P event)) s = (s', false) :=
        andThen_of_false hr
      rw [hall]
      refine ⟨[call], hcalls, ⟨?_, by simp, .inr ⟨call, rfl, hgo.symm⟩⟩, ?_⟩
      · simp [hkey]
      · simpa using hnull hs
    · rw [hr] at hcalls hgo
      have hall : all ((c :: cs).map (referenceCall P event)) s =
          all (cs.map (referenceCall P event)) s' := andThen_of_true hr
      obtain ⟨made, hmade, hex, hlast⟩ := ih (fun d hd => hon d (List.mem_cons_of_mem _ hd))
        (referenceCall_alive P hs hr)
      rw [hall]
      refine ⟨call :: made, by rw [hmade, hcalls]; simp, ⟨?_, fun d hd => ?_, ?_⟩, ?_⟩
      · simpa [hkey] using hex.initial
      · cases made with
        | nil => simp at hd
        | cons m ms =>
          rw [List.dropLast_cons_cons] at hd
          rcases List.mem_cons.mp hd with rfl | hd
          · exact hgo.symm
          · exact hex.goOn d hd
      · rcases hex.complete with he | ⟨d, hd, hstop⟩
        · exact .inl (by simp [hkey, he])
        · exact .inr ⟨d, by simp [List.getLast?_cons, hd], hstop⟩
      · rw [hlast]
        cases made with
        | nil =>
          have hleft : call.leftNull = false := by
            have := hgo.symm
            simp only [Call.goesOn, Bool.and_eq_true, Bool.not_eq_true'] at this
            exact this.2
          simp [hleft]
        | cons m ms => simp [List.getLast?_cons]

/-- A dispatch of a live event is the reference run: it makes the calls of the reference list up to
and including the first one that stops it, and it ends with a null event exactly when its last call
left its pointer null. -/
theorem dispatch_meaning (tree : TypeTree T) (handlers : List H) (w : σ) {ev : EventPtr A C}
    (hev : ev.ptr ≠ none) :
    dispatch P tree handlers ⟨w, ev, []⟩ =
        referenceRun P tree.root (referenceCalls P tree handlers) ⟨w, ev, []⟩ ∧
      Executed (referenceCalls P tree handlers) (dispatch P tree handlers ⟨w, ev, []⟩).calls ∧
      ((dispatch P tree handlers ⟨w, ev, []⟩).ev.ptr = none ↔
        ∃ c, (dispatch P tree handlers ⟨w, ev, []⟩).calls.getLast? = some c ∧
          c.leftNull = true) := by
  have hrun : dispatch P tree handlers ⟨w, ev, []⟩ =
      referenceRun P tree.root (referenceCalls P tree handlers) ⟨w, ev, []⟩ := by
    have hnull : ev.ptr.isNone = false :=
      Option.isNone_eq_false_iff.mpr (Option.isSome_iff_ne_none.mpr hev)
    simp only [dispatch, hnull]
    rw [referenceRun, ← dispatchAll_eq P tree handlers hev]
    rfl
  obtain ⟨made, hmade, hex, hlast⟩ := all_made P tree.root
    (fun c hc => mem_referenceCalls P hc) (s := ⟨w, ev, []⟩) hev
  rw [List.nil_append] at hmade
  refine ⟨hrun, ?_, ?_⟩
  · rw [hrun, referenceRun, hmade]
    exact hex
  · rw [hrun, referenceRun, hmade]
    exact hlast

end Meaning

/-- Type 0 with the base 1. The handler `false` takes both and keeps the event; `true` takes the
base and drops what it is given. -/
def dropOfBase : Handlers Unit ℕ Unit Bool ℕ where
  on h t :=
    if h = false then some fun w p => (w, p, true)
    else if t = 1 then some fun w p => (w, p.reset.1, true)
    else none
  delete w _ := w

theorem dispatch_meaning_drop_of_base :
    (dispatch dropOfBase (.node 0 [.node 1 []]) [false, true]
      ⟨(), ⟨some 7, none, none⟩, []⟩).calls =
        [⟨false, 1, some 7, true, false⟩, ⟨false, 0, some 7, true, false⟩,
          ⟨true, 1, some 7, true, true⟩] ∧
      (dispatch dropOfBase (.node 0 [.node 1 []]) [false, true]
        ⟨(), ⟨some 7, none, none⟩, []⟩).ev.ptr = none := by
  obtain ⟨hrun, _, hlast⟩ := dispatch_meaning dropOfBase (.node 0 [.node 1 []]) [false, true] ()
    (show (⟨some 7, none, none⟩ : EventPtr ℕ Unit).ptr ≠ none by simp)
  have hcalls : (dispatch dropOfBase (.node 0 [.node 1 []]) [false, true]
      ⟨(), ⟨some 7, none, none⟩, []⟩).calls =
      [⟨false, 1, some 7, true, false⟩, ⟨false, 0, some 7, true, false⟩,
        ⟨true, 1, some 7, true, true⟩] := by
    rw [hrun]
    rfl
  refine ⟨hcalls, hlast.mpr ?_⟩
  rw [hcalls]
  exact ⟨_, rfl, rfl⟩

end ConduitRuntime.Pipeline
