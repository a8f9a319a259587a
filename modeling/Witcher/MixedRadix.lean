import Mathlib.Algebra.BigOperators.Group.List.Basic
import Mathlib.Data.List.Forall2
import Mathlib.Data.List.Nodup

/-! Mixed radix numbers. With radices `ds`, most significant first, the numbers below the product of
the radices stand for the lists of digits below the radices, each exactly once. -/

namespace Witcher.MixedRadix

/-- The weight of each position: the product of the radices after it. -/
def weights : List Nat → List Nat
  | [] => []
  | _ :: ds => ds.prod :: weights ds

def digits : List Nat → Nat → List Nat
  | [], _ => []
  | _ :: ds, n => n / ds.prod :: digits ds (n % ds.prod)

def value : List Nat → List Nat → Nat
  | _ :: ds, k :: ks => k * ds.prod + value ds ks
  | _, _ => 0

theorem prod_tail_pos {d : Nat} {ds : List Nat} {n : Nat} (h : n < (d :: ds).prod) : 0 < ds.prod := by
  rw [List.prod_cons] at h
  exact Nat.pos_of_mul_pos_left (Nat.lt_of_le_of_lt (Nat.zero_le n) h)

theorem digits_lt {ds : List Nat} {n : Nat} (h : n < ds.prod) : List.Forall₂ (· < ·) (digits ds n) ds := by
  induction ds generalizing n with
  | nil => exact List.Forall₂.nil
  | cons d ds ih =>
      have hpos := prod_tail_pos h
      rw [List.prod_cons] at h
      exact List.Forall₂.cons ((Nat.div_lt_iff_lt_mul hpos).mpr h) (ih (Nat.mod_lt n hpos))

theorem value_digits {ds : List Nat} {n : Nat} (h : n < ds.prod) : value ds (digits ds n) = n := by
  induction ds generalizing n with
  | nil =>
      rw [List.prod_nil] at h
      simp only [value]
      omega
  | cons d ds ih =>
      rw [digits, value, ih (Nat.mod_lt n (prod_tail_pos h)), Nat.div_add_mod']

theorem value_lt {ds ks : List Nat} (h : List.Forall₂ (· < ·) ks ds) : value ds ks < ds.prod := by
  induction h with
  | nil => simp [value]
  | @cons k d ks ds hk hks ih =>
      rw [value, List.prod_cons]
      calc k * ds.prod + value ds ks < k * ds.prod + ds.prod := Nat.add_lt_add_left ih _
        _ = (k + 1) * ds.prod := by rw [Nat.add_mul, Nat.one_mul]
        _ ≤ d * ds.prod := Nat.mul_le_mul_right _ hk

theorem digits_value {ds ks : List Nat} (h : List.Forall₂ (· < ·) ks ds) : digits ds (value ds ks) = ks := by
  induction h with
  | nil => rfl
  | @cons k d ks ds hk hks ih =>
      have hlt := value_lt hks
      have hpos : 0 < ds.prod := by omega
      rw [value, digits, Nat.add_comm, Nat.add_mul_div_right _ _ hpos, Nat.div_eq_of_lt hlt, Nat.zero_add,
        Nat.add_mul_mod_self_right, Nat.mod_eq_of_lt hlt, ih]

theorem value_eq_zero {ds ks : List Nat} (h : ∀ k ∈ ks, k = 0) : value ds ks = 0 := by
  induction ks generalizing ds with
  | nil => cases ds <;> rfl
  | cons k ks ih =>
      cases ds with
      | nil => rfl
      | cons d ds =>
          rw [value, h k List.mem_cons_self, ih fun k' hk' => h k' (List.mem_cons_of_mem k hk')]
          simp

theorem digits_zero (ds : List Nat) : ∀ k ∈ digits ds 0, k = 0 := by
  induction ds with
  | nil => simp [digits]
  | cons d ds ih => simpa [digits] using ih

/-- The digits of the numbers from one on: every digit list but the zero one, each once. -/
theorem digits_succ_range (ds : List Nat) :
    ((List.range (ds.prod - 1)).map fun n => digits ds (n + 1)).Nodup ∧
      ∀ ks, ks ∈ (List.range (ds.prod - 1)).map (fun n => digits ds (n + 1)) ↔
        List.Forall₂ (· < ·) ks ds ∧ ∃ k ∈ ks, k ≠ 0 := by
  constructor
  · refine List.Nodup.map_on ?_ List.nodup_range
    intro n hn n' hn' heq
    rw [List.mem_range] at hn hn'
    have h1 : value ds (digits ds (n + 1)) = n + 1 := value_digits (by omega)
    have h2 : value ds (digits ds (n' + 1)) = n' + 1 := value_digits (by omega)
    rw [heq] at h1
    omega
  · intro ks
    constructor
    · intro hks
      obtain ⟨n, hn, rfl⟩ := List.mem_map.mp hks
      rw [List.mem_range] at hn
      refine ⟨digits_lt (by omega), ?_⟩
      by_contra hzero
      push Not at hzero
      have h1 : value ds (digits ds (n + 1)) = n + 1 := value_digits (by omega)
      rw [value_eq_zero hzero] at h1
      omega
    · rintro ⟨hks, k, hk, hne⟩
      have hlt := value_lt hks
      have hpos : value ds ks ≠ 0 := by
        intro hzero
        have h1 := digits_value hks
        rw [hzero] at h1
        exact hne (digits_zero ds k (by rw [h1]; exact hk))
      refine List.mem_map.mpr ⟨value ds ks - 1, List.mem_range.mpr (by omega), ?_⟩
      rw [show value ds ks - 1 + 1 = value ds ks from by omega, digits_value hks]

end Witcher.MixedRadix
