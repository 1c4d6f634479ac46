import ConduitRuntime.Memory.Pool

/-! A pool that is used by whole calls: its free list and the cells that somebody holds are all its
cells, each once. So `make` fails exactly when all cells are held. -/
namespace ConduitRuntime.Memory.Pool
set_option autoImplicit false

def Accounts (n : ℕ) (p : Pool) (held : List ℕ) : Prop :=
  ∃ l, p.FreeList n l ∧ (l ++ held).Perm (List.range n)

theorem init_accounts {n : ℕ} (hpos : 1 ≤ n) (hcap : n ≤ 2 ^ 32 - 1) (memory : ℕ → BitVec 64) :
    (init n memory).Accounts n [] :=
  ⟨List.range n, init_freeList hpos hcap memory, by simp⟩

namespace Accounts
variable {n i : ℕ} {p : Pool} {held : List ℕ}

theorem perm (h : p.Accounts n held) {held' : List ℕ} (hp : held.Perm held') :
    p.Accounts n held' := by
  obtain ⟨l, hlist, hperm⟩ := h
  exact ⟨l, hlist, (hp.append_left l).symm.trans hperm⟩

theorem lt (h : p.Accounts n held) (hi : i ∈ held) : i < n := by
  obtain ⟨l, -, hperm⟩ := h
  exact List.mem_range.mp (hperm.mem_iff.mp (List.mem_append_right l hi))

theorem length_le (h : p.Accounts n held) : held.length ≤ n := by
  obtain ⟨l, -, hperm⟩ := h
  have hlen := hperm.length_eq
  rw [List.length_append, List.length_range] at hlen
  omega

theorem make_full (h : p.Accounts n held) (hlen : held.length = n) {C : Type} (this : C)
    (object : BitVec 64) : p.make this object = (p, .null) := by
  obtain ⟨l, hlist, hperm⟩ := h
  have hnil : l = [] := by
    have hall := hperm.length_eq
    rw [List.length_append, List.length_range] at hall
    exact List.length_eq_zero_iff.mp (by omega)
  rw [hnil] at hlist
  exact make_of_nil this object hlist

theorem make (h : p.Accounts n held) (hlen : held.length < n) {C : Type} (this : C)
    (object : BitVec 64) :
    ∃ i, (p.make this object).2 = ⟨some i, some .releaseToPool, some this⟩ ∧
      (p.make this object).1.Accounts n (i :: held) := by
  obtain ⟨l, hlist, hperm⟩ := h
  cases l with
  | nil =>
    have hall := hperm.length_eq
    rw [List.nil_append, List.length_range] at hall
    omega
  | cons i l =>
    obtain ⟨hmade, hfree⟩ := make_of_cons this object hlist
    exact ⟨i, hmade, l, hfree, List.perm_middle.trans hperm⟩

theorem free (hcap : n ≤ 2 ^ 32 - 1) (h : p.Accounts n (i :: held)) :
    (p.free i).Accounts n held := by
  have hlt := h.lt List.mem_cons_self
  obtain ⟨l, hlist, hperm⟩ := h
  have hnotin : i ∉ l := by
    have hnodup := hperm.nodup_iff.mpr List.nodup_range
    exact fun hl => (List.nodup_append.mp hnodup).2.2 i hl i List.mem_cons_self rfl
  exact ⟨i :: l, free_freeList hcap hlist hlt hnotin, List.perm_middle.symm.trans hperm⟩

/-- An owner's write into its cell. -/
theorem write (h : p.Accounts n held) (hi : i ∈ held) (word : BitVec 64) :
    (p.writeNext i word).Accounts n held := by
  obtain ⟨l, hlist, hperm⟩ := h
  have hnotin : i ∉ l := by
    have hnodup := hperm.nodup_iff.mpr List.nodup_range
    exact fun hl => (List.nodup_append.mp hnodup).2.2 i hl i hi rfl
  exact ⟨l, writeNext_freeList hlist hnotin word, hperm⟩

end Accounts

end ConduitRuntime.Memory.Pool
