import ConduitRuntime.Foundations.LinkChain

/-! Doubly linked lists threaded through a `next` and a `prev` function and ended by a stop value.
The links of nodes outside a list are never looked at, so they may hold anything. -/
namespace ConduitRuntime.DoublyLinked
open LinkChain
set_option autoImplicit false

variable {ν : Type} {next prev next' prev' : ν → ν} {stop p q h x y : ν} {l : List ν}

/-- Following `next` from `h` visits exactly `l` and then meets `stop`; following `prev` from any
node of `l` leads to the node before it, and from the first to `p`. -/
def Linked (next prev : ν → ν) (stop : ν) : ν → ν → List ν → Prop
  | _, h, [] => h = stop
  | p, h, x :: l => h = x ∧ x ≠ stop ∧ prev x = p ∧ Linked next prev stop x (next x) l

theorem Linked.chain (hl : Linked next prev stop p h l) : Chain next stop h l := by
  induction l generalizing p h with
  | nil =>
    obtain rfl : h = stop := hl
    exact .nil
  | cons z l ih =>
    obtain ⟨rfl, hne, _, ht⟩ := hl
    exact .cons hne (ih ht)

theorem Linked.nodup (hl : Linked next prev stop p h l) : l.Nodup := hl.chain.nodup

theorem Linked.ne_stop (hl : Linked next prev stop p h l) (hx : x ∈ l) : x ≠ stop :=
  hl.chain.ne_stop hx

theorem Linked.head_mem (hl : Linked next prev stop p h l) (hne : h ≠ stop) : h ∈ l := by
  cases l with
  | nil => exact absurd hl hne
  | cons z l =>
    obtain ⟨rfl, _⟩ := hl
    exact List.mem_cons_self

theorem Linked.congr (hl : Linked next prev stop p h l) (hn : ∀ y ∈ l, next' y = next y)
    (hp : ∀ y ∈ l, prev' y = prev y) : Linked next' prev' stop p h l := by
  induction l generalizing p h with
  | nil => exact hl
  | cons z l ih =>
    obtain ⟨rfl, hne, hpz, ht⟩ := hl
    refine ⟨rfl, hne, (hp h (by simp)).trans hpz, ?_⟩
    rw [hn h (by simp)]
    exact ih ht (fun y hy => hn y (by simp [hy])) fun y hy => hp y (by simp [hy])

/-- A list determines where it starts and the links of its nodes. -/
theorem Linked.determined {h' : ν} (hl : Linked next prev stop p h l)
    (hl' : Linked next' prev' stop p h' l) :
    h' = h ∧ ∀ y ∈ l, next' y = next y ∧ prev' y = prev y := by
  induction l generalizing p h h' with
  | nil =>
    have hh : h = stop := hl
    have hh' : h' = stop := hl'
    exact ⟨hh'.trans hh.symm, fun y hy => absurd hy List.not_mem_nil⟩
  | cons z l ih =>
    obtain ⟨rfl, _, hpz, ht⟩ := hl
    obtain ⟨rfl, _, hpz', ht'⟩ := hl'
    obtain ⟨hnext, hrest⟩ := ih ht ht'
    refine ⟨rfl, fun y hy => ?_⟩
    rcases List.mem_cons.mp hy with rfl | hm
    · exact ⟨hnext, hpz'.trans hpz.symm⟩
    · exact hrest y hm

/-! ## Neighbours -/

theorem Linked.next_mem (hl : Linked next prev stop p h l) (hy : y ∈ l) :
    next y = stop ∨ next y ∈ l := by
  induction l generalizing p h with
  | nil => cases hy
  | cons z l ih =>
    obtain ⟨rfl, _, _, ht⟩ := hl
    rcases List.mem_cons.mp hy with rfl | hm
    · by_cases hs : next y = stop
      · exact .inl hs
      · exact .inr (List.mem_cons_of_mem _ (ht.head_mem hs))
    · rcases ih ht hm with hs | hm'
      · exact .inl hs
      · exact .inr (List.mem_cons_of_mem _ hm')

theorem Linked.prev_mem (hl : Linked next prev stop p h l) (hy : y ∈ l) :
    prev y = p ∨ prev y ∈ l := by
  induction l generalizing p h with
  | nil => cases hy
  | cons z l ih =>
    obtain ⟨rfl, _, hpz, ht⟩ := hl
    rcases List.mem_cons.mp hy with rfl | hm
    · exact .inl hpz
    · rcases ih ht hm with he | hm'
      · rw [he]
        exact .inr List.mem_cons_self
      · exact .inr (List.mem_cons_of_mem _ hm')

theorem Linked.prev_next (hl : Linked next prev stop p h l) (hy : y ∈ l) (hne : next y ≠ stop) :
    prev (next y) = y := by
  induction l generalizing p h with
  | nil => cases hy
  | cons z l ih =>
    obtain ⟨rfl, _, _, ht⟩ := hl
    rcases List.mem_cons.mp hy with rfl | hm
    · cases l with
      | nil => exact absurd ht hne
      | cons z l =>
        obtain ⟨he, _, hpz, _⟩ := ht
        rw [he]
        exact hpz
    · exact ih ht hm

theorem Linked.eq_head (hl : Linked next prev stop p h l) (hp : p ∉ l) (hx : x ∈ l)
    (he : prev x = p) : x = h := by
  cases l with
  | nil => cases hx
  | cons z l =>
    obtain ⟨rfl, _, _, ht⟩ := hl
    rcases List.mem_cons.mp hx with rfl | hm
    · rfl
    · rcases ht.prev_mem hm with hz | hm'
      · exact absurd (by rw [← he, hz]; exact List.mem_cons_self) hp
      · exact absurd (by rw [← he]; exact List.mem_cons_of_mem _ hm') hp

theorem Linked.next_prev (hl : Linked next prev stop p h l) (hx : x ∈ l) (hne : prev x ≠ p) :
    next (prev x) = x := by
  induction l generalizing p h with
  | nil => cases hx
  | cons z l ih =>
    have hnodup := (List.nodup_cons.mp hl.nodup).1
    obtain ⟨rfl, _, hpz, ht⟩ := hl
    rcases List.mem_cons.mp hx with rfl | hm
    · exact absurd hpz hne
    · by_cases he : prev x = h
      · rw [he]
        exact (ht.eq_head hnodup hm he).symm
      · exact ih ht hm he

theorem Linked.stop_notMem (hl : Linked next prev stop p h l) : stop ∉ l :=
  fun hm => hl.ne_stop hm rfl

theorem Linked.prev_eq_stop_iff (hl : Linked next prev stop stop h l) (hx : x ∈ l) :
    prev x = stop ↔ h = x := by
  constructor
  · intro he
    exact (hl.eq_head hl.stop_notMem hx he).symm
  · rintro rfl
    cases l with
    | nil => cases hx
    | cons z l => exact hl.1 ▸ hl.2.2.1

/-- Two nodes of a list are neighbours in both directions or in none. -/
theorem Linked.prev_eq_iff (hl : Linked next prev stop stop h l) (hx : x ∈ l) (hy : y ∈ l) :
    prev x = y ↔ next y = x := by
  constructor
  · rintro rfl
    exact hl.next_prev hx (hl.ne_stop hy)
  · rintro rfl
    exact hl.prev_next hy (hl.ne_stop hx)

/-! ## Insertion at the head and removal -/

theorem Linked.push (hl : Linked next prev stop p h l) (hne : x ≠ stop) (hnext : next' x = h)
    (hprev : prev' x = q) (hhead : h ≠ stop → prev' h = x) (hn : ∀ y ∈ l, next' y = next y)
    (hp : ∀ y ∈ l, y ≠ h → prev' y = prev y) : Linked next' prev' stop q x (x :: l) := by
  refine ⟨rfl, hne, hprev, ?_⟩
  rw [hnext]
  cases l with
  | nil => exact hl
  | cons z l =>
    have hnodup := (List.nodup_cons.mp hl.nodup).1
    obtain ⟨rfl, hz, _, ht⟩ := hl
    refine ⟨rfl, hz, hhead hz, ?_⟩
    rw [hn h (by simp)]
    refine ht.congr (fun y hy => hn y (by simp [hy])) fun y hy => hp y (by simp [hy]) ?_
    rintro rfl
    exact hnodup hy

/-- The list behind a removed node is linked to what was before that node. -/
theorem Linked.rebase [DecidableEq ν] (hl : Linked next prev stop x h l) (hx : x ∉ l)
    (hn : ∀ y ∈ l, next' y = next y)
    (hp : ∀ y ∈ l, prev' y = if prev y = x then p else prev y) :
    Linked next' prev' stop p h l := by
  cases l with
  | nil => exact hl
  | cons z l =>
    obtain ⟨rfl, hz, hpz, ht⟩ := hl
    refine ⟨rfl, hz, ?_, ?_⟩
    · rw [hp h (by simp), if_pos hpz]
    · rw [hn h (by simp)]
      refine ht.congr (fun y hy => hn y (by simp [hy])) fun y hy => ?_
      have hne : prev y ≠ x := by
        rintro rfl
        rcases ht.prev_mem hy with he | hm
        · exact hx (he ▸ List.mem_cons_self)
        · exact hx (List.mem_cons_of_mem _ hm)
      rw [hp y (by simp [hy]), if_neg hne]

/-- Every link to `x` now leads to where `x` itself leads. -/
theorem Linked.unlink [DecidableEq ν] (hl : Linked next prev stop p h l) (hx : x ∈ l) (hpx : p ≠ x)
    (hn : ∀ y ∈ l, y ≠ x → next' y = if next y = x then next x else next y)
    (hp : ∀ y ∈ l, y ≠ x → prev' y = if prev y = x then prev x else prev y) :
    Linked next' prev' stop p (if h = x then next x else h) (l.erase x) := by
  induction l generalizing p h with
  | nil => cases hx
  | cons z l ih =>
    have hnodup := (List.nodup_cons.mp hl.nodup).1
    obtain ⟨rfl, hz, hpz, ht⟩ := hl
    by_cases hhx : h = x
    · subst hhx
      rw [if_pos rfl, List.erase_cons_head]
      have hother : ∀ y ∈ l, y ≠ h := by
        rintro y hy rfl
        exact hnodup hy
      refine ht.rebase hnodup (fun y hy => ?_) fun y hy => ?_
      · have hne : next y ≠ h := by
          rintro rfl
          rcases ht.next_mem hy with hs | hm
          · exact hz hs
          · exact hnodup hm
        rw [hn y (by simp [hy]) (hother y hy), if_neg hne]
      · rw [hp y (by simp [hy]) (hother y hy), hpz]
    · have hm : x ∈ l := (List.mem_cons.mp hx).resolve_left (Ne.symm hhx)
      rw [if_neg hhx, List.erase_cons_tail (by simpa using hhx)]
      refine ⟨rfl, hz, ?_, ?_⟩
      · rw [hp h (by simp) hhx, hpz, if_neg hpx]
      · rw [hn h (by simp) hhx]
        exact ih ht hm hhx (fun y hy => hn y (by simp [hy])) fun y hy => hp y (by simp [hy])

/-! ## The two writes as updates of the links -/

section Updates
variable [DecidableEq ν]

/-- The links after `x` was put in front of the list that starts at `h`. -/
def pushPrev (prev : ν → ν) (stop h x : ν) : ν → ν :=
  if h = stop then Function.update prev x stop
  else Function.update (Function.update prev x stop) h x

/-- The links after the neighbours of `x` were linked to each other. -/
def spliceNext (next prev : ν → ν) (stop x : ν) : ν → ν :=
  if prev x = stop then next else Function.update next (prev x) (next x)

def splicePrev (next prev : ν → ν) (stop x : ν) : ν → ν :=
  if next x = stop then prev else Function.update prev (next x) (prev x)

theorem pushPrev_of_ne (hx : y ≠ x) (hh : y ≠ h) : pushPrev prev stop h x y = prev y := by
  unfold pushPrev
  split
  · rw [Function.update_of_ne hx]
  · rw [Function.update_of_ne hh, Function.update_of_ne hx]

theorem Linked.insertHead (hl : Linked next prev stop stop h l) (hx : x ∉ l) (hne : x ≠ stop) :
    Linked (Function.update next x h) (pushPrev prev stop h x) stop stop x (x :: l) := by
  have hother : ∀ y ∈ l, y ≠ x := by
    rintro y hy rfl
    exact hx hy
  refine hl.push hne (Function.update_self ..) ?_ ?_
    (fun y hy => Function.update_of_ne (hother y hy) _ _)
    fun y hy hyh => pushPrev_of_ne (hother y hy) hyh
  · unfold pushPrev
    split
    · exact Function.update_self ..
    · rename_i hs
      rw [Function.update_of_ne (hother h (hl.head_mem hs)).symm, Function.update_self]
  · intro hs
    rw [pushPrev, if_neg hs, Function.update_self]

/-- A list that shares no node with the one written to stays as it is. -/
theorem Linked.insertHead_frame {g : ν} {k : List ν} (hl : Linked next prev stop stop h l)
    (hk : Linked next prev stop stop g k) (hx : x ∉ k) (hdisj : ∀ y ∈ k, y ∉ l) :
    Linked (Function.update next x h) (pushPrev prev stop h x) stop stop g k := by
  have hother : ∀ y ∈ k, y ≠ x := by
    rintro y hy rfl
    exact hx hy
  refine hk.congr (fun y hy => Function.update_of_ne (hother y hy) _ _) fun y hy =>
    pushPrev_of_ne (hother y hy) ?_
  rintro rfl
  exact hdisj y hy (hl.head_mem (hk.ne_stop hy))

theorem Linked.spliceNext_eq (hl : Linked next prev stop stop h l) (hx : x ∈ l) (hy : y ∈ l) :
    spliceNext next prev stop x y = if next y = x then next x else next y := by
  unfold spliceNext
  by_cases hs : prev x = stop
  · have hne : next y ≠ x := fun he => hl.ne_stop hy (((hl.prev_eq_iff hx hy).mpr he) ▸ hs)
    rw [if_pos hs, if_neg hne]
  · rw [if_neg hs, Function.update_apply]
    exact if_congr (eq_comm.trans (hl.prev_eq_iff hx hy)) rfl rfl

theorem Linked.splicePrev_eq (hl : Linked next prev stop stop h l) (hx : x ∈ l) (hy : y ∈ l) :
    splicePrev next prev stop x y = if prev y = x then prev x else prev y := by
  unfold splicePrev
  by_cases hs : next x = stop
  · have hne : prev y ≠ x := fun he => hl.ne_stop hy (((hl.prev_eq_iff hy hx).mp he) ▸ hs)
    rw [if_pos hs, if_neg hne]
  · rw [if_neg hs, Function.update_apply]
    exact if_congr (eq_comm.trans (hl.prev_eq_iff hy hx).symm) rfl rfl

theorem Linked.splice (hl : Linked next prev stop stop h l) (hx : x ∈ l) :
    Linked (spliceNext next prev stop x) (splicePrev next prev stop x) stop stop
      (if prev x = stop then next x else h) (l.erase x) := by
  rw [if_congr (hl.prev_eq_stop_iff hx) rfl rfl]
  exact hl.unlink hx (hl.ne_stop hx).symm (fun y hy _ => hl.spliceNext_eq hx hy)
    fun y hy _ => hl.splicePrev_eq hx hy

theorem Linked.splice_frame {g : ν} {k : List ν} (hl : Linked next prev stop stop h l)
    (hk : Linked next prev stop stop g k) (hx : x ∈ l) (hdisj : ∀ y ∈ k, y ∉ l) :
    Linked (spliceNext next prev stop x) (splicePrev next prev stop x) stop stop g k := by
  refine hk.congr (fun y hy => ?_) fun y hy => ?_
  · unfold spliceNext
    split
    · rfl
    · rename_i hs
      apply Function.update_of_ne
      rintro rfl
      exact hdisj _ hy ((hl.prev_mem hx).resolve_left hs)
  · unfold splicePrev
    split
    · rfl
    · rename_i hs
      apply Function.update_of_ne
      rintro rfl
      exact hdisj _ hy ((hl.next_mem hx).resolve_left hs)

/-- Splicing at a node off the list, whose links are stale: the list stays as it is exactly when the
links written are the ones it has. -/
theorem Linked.splice_stale_iff {h' : ν} (hl : Linked next prev stop stop h l) :
    Linked (spliceNext next prev stop x) (splicePrev next prev stop x) stop stop h' l ↔
      h' = h ∧ (prev x ∈ l → next (prev x) = next x) ∧ (next x ∈ l → prev (next x) = prev x) := by
  constructor
  · intro hl'
    obtain ⟨hh, hlinks⟩ := hl.determined hl'
    refine ⟨hh, fun hp => ?_, fun hn => ?_⟩
    · have hsame := (hlinks _ hp).1
      rw [spliceNext, if_neg (hl.ne_stop hp), Function.update_self] at hsame
      exact hsame.symm
    · have hsame := (hlinks _ hn).2
      rw [splicePrev, if_neg (hl.ne_stop hn), Function.update_self] at hsame
      exact hsame.symm
  · rintro ⟨rfl, hp, hn⟩
    refine hl.congr (fun y hy => ?_) fun y hy => ?_
    · unfold spliceNext
      split
      · rfl
      · by_cases he : y = prev x
        · rw [he, Function.update_self]
          exact (hp (he ▸ hy)).symm
        · exact Function.update_of_ne he _ _
    · unfold splicePrev
      split
      · rfl
      · by_cases he : y = next x
        · rw [he, Function.update_self]
          exact (hn (he ▸ hy)).symm
        · exact Function.update_of_ne he _ _

end Updates

end ConduitRuntime.DoublyLinked
