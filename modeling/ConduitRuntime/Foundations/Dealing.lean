import Mathlib.Data.List.Rotate
import Mathlib.Logic.Function.Basic
import Mathlib.Tactic.Common

/-! A queue dealt out over a cycle of piles, like cards: the oldest element lies at the bottom of
the first pile, the next at the bottom of the second, and so on around. -/
namespace ConduitRuntime.Dealing
set_option autoImplicit false

variable {τ A : Type} [DecidableEq τ]

/-- The piles `f` over the cycle `ts` hold the queue, whose oldest element is in the first pile. -/
def Dealt : List A → (τ → List A) → List τ → Prop
  | [], f, ts => ∀ t ∈ ts, f t = []
  | q :: qs, f, ts => ∃ t rest tl, ts = t :: tl ∧ f t = q :: rest ∧
      Dealt qs (Function.update f t rest) (tl ++ [t])

/-- A new element goes to the pile as many places on as there are elements. -/
theorem Dealt.snoc {qs : List A} {f : τ → List A} {ts tl : List τ} {t : τ} (x : A)
    (h : Dealt qs f ts) (ht : ts.rotate qs.length = t :: tl) :
    Dealt (qs ++ [x]) (Function.update f t (f t ++ [x])) ts := by
  induction qs generalizing f ts with
  | nil =>
    rw [List.length_nil, List.rotate_zero] at ht
    subst ht
    have hnil : ∀ s ∈ t :: tl, f s = [] := h
    refine ⟨t, [], tl, rfl, by simp [hnil t (by simp)], fun s hs => ?_⟩
    have hs' : s ∈ t :: tl := by simpa [or_comm] using hs
    by_cases hst : s = t
    · simp [hst]
    · simp [hst, hnil s hs']
  | cons q qs ih =>
    obtain ⟨s, rest, sl, rfl, hs, hd⟩ := h
    rw [List.length_cons, List.rotate_cons_succ] at ht
    have hrec := ih hd ht
    by_cases hst : t = s
    · subst hst
      refine ⟨t, rest ++ [x], sl, rfl, by simp [hs], ?_⟩
      simpa using hrec
    · refine ⟨s, rest, sl, rfl, by simp [Ne.symm hst, hs], ?_⟩
      rw [Function.update_comm hst]
      simpa [hst] using hrec

theorem Dealt.length {qs : List A} {f : τ → List A} {ts : List τ} (h : Dealt qs f ts)
    (hnodup : ts.Nodup) {j : ℕ} (hj : j < ts.length) :
    (f ts[j]).length = (qs.length + (ts.length - 1 - j)) / ts.length := by
  induction qs generalizing f ts j with
  | nil =>
    have hnil : f ts[j] = [] := h _ (List.getElem_mem hj)
    rw [hnil, List.length_nil, Nat.zero_add]
    exact (Nat.div_eq_of_lt (by omega)).symm
  | cons q qs ih =>
    obtain ⟨t, rest, tl, rfl, ht, hd⟩ := h
    obtain ⟨hnotin, htl⟩ := List.nodup_cons.mp hnodup
    have hnd : (tl ++ [t]).Nodup := by
      rw [List.nodup_append]
      exact ⟨htl, by simp, by
        intro a ha b hb
        rw [List.mem_singleton.mp hb]
        rintro rfl
        exact hnotin ha⟩
    cases j with
    | zero =>
      have hlast := ih hd hnd (j := tl.length) (by simp)
      simp only [List.getElem_concat_length, Function.update_self, List.length_append,
        List.length_singleton] at hlast
      simp only [List.getElem_cons_zero, ht, List.length_cons, hlast]
      have e : qs.length + 1 + (tl.length + 1 - 1 - 0) = qs.length + (tl.length + 1) := by omega
      have e' : qs.length + (tl.length + 1 - 1 - tl.length) = qs.length := by omega
      rw [e, e', Nat.add_div_right _ (Nat.succ_pos _)]
    | succ j =>
      have hj' : j < tl.length := by simpa using hj
      have hne : tl[j] ≠ t := by
        rintro rfl
        exact hnotin (List.getElem_mem hj')
      have hrec := ih hd hnd (j := j) (by simp; omega)
      rw [List.getElem_append_left hj', Function.update_of_ne hne] at hrec
      simp only [List.getElem_cons_succ, hrec, List.length_append, List.length_cons,
        List.length_nil]
      congr 1
      omega

/-- Below `m` elements for each pile, the pile next in turn holds fewer than `m`. -/
theorem Dealt.next_lt {qs : List A} {f : τ → List A} {ts tl : List τ} {t : τ} {m : ℕ}
    (h : Dealt qs f ts) (hnodup : ts.Nodup) (ht : ts.rotate qs.length = t :: tl)
    (hlt : qs.length < ts.length * m) : (f t).length < m := by
  have hpos : 0 < ts.length := Nat.pos_of_mul_pos_right (Nat.zero_lt_of_lt hlt)
  have hr := Nat.mod_lt qs.length hpos
  have hget : ts[qs.length % ts.length] = t := by
    have h0 := List.head?_rotate hr
    rw [List.rotate_mod, ht, List.head?_cons, List.getElem?_eq_getElem hr] at h0
    exact (Option.some.inj h0).symm
  have hlen := h.length hnodup hr
  have hsplit := Nat.div_add_mod qs.length ts.length
  have e : qs.length + (ts.length - 1 - qs.length % ts.length) =
      ts.length * (qs.length / ts.length) + (ts.length - 1) := by omega
  rw [hget, e, Nat.mul_add_div hpos, Nat.div_eq_of_lt (by omega : ts.length - 1 < ts.length),
    Nat.add_zero] at hlen
  rw [hlen]
  exact Nat.div_lt_of_lt_mul hlt

/-- With `m` elements for each pile, every pile holds `m`. -/
theorem Dealt.all_eq {qs : List A} {f : τ → List A} {ts : List τ} {t : τ} {m : ℕ}
    (h : Dealt qs f ts) (hnodup : ts.Nodup) (ht : t ∈ ts) (hm : qs.length = ts.length * m) :
    (f t).length = m := by
  obtain ⟨j, hj, rfl⟩ := List.getElem_of_mem ht
  rw [h.length hnodup hj, hm, Nat.mul_add_div (by omega), Nat.div_eq_of_lt (by omega),
    Nat.add_zero]

end ConduitRuntime.Dealing
