import Witcher.TrueDivision

/-! Binary search between two positions. The loop probes the position in the middle, whose distance
from the left end is a floating point quotient, and moves one of the ends there; both ends stay in the
candidate interval. It stops when a probe hits or when no position is left strictly between the ends. -/

namespace Witcher.Bisection

open TrueDivision

inductive Outcome where
  | found (mid : Nat)
  | gap (left right : Nat)
  deriving DecidableEq, Repr

/-- `while left+1 < right`. The probe says on which side of its target a position lies. Every iteration
shrinks the interval, so `right - left` iterations are enough. -/
def search (probe : Nat → Ordering) : Nat → Nat → Nat → Outcome
  | 0, left, right => .gap left right
  | fuel + 1, left, right =>
      if left + 1 < right then
        let mid := left + trueDivInt (right - left) 2
        match probe mid with
        | .eq => .found mid
        | .gt => search probe fuel left mid
        | .lt => search probe fuel mid right
      else .gap left right

/-- Half of the distance lies strictly between the ends, also where the quotient is rounded. -/
theorem trueDivInt_two_bounds {n : Nat} (h : 2 ≤ n) : 0 < trueDivInt n 2 ∧ trueDivInt n 2 < n := by
  by_cases hn : n < 2 ^ 53
  · rw [trueDivInt_eq_div n 2 (by decide) hn]
    omega
  · have hbig : 2 ^ 52 ≤ n / 2 := by omega
    rw [trueDivInt]
    split_ifs with hq
    · -- the quotient has no places after the point
      have hlog : (n / 2).log2 = 52 := by
        rw [Nat.log2_eq_iff (by omega)]
        omega
      have hplaces : places (n / 2) = 0 := by
        rw [places, if_neg (by omega), hlog]
      have hlow := roundHalfEven_ge n 2
      have hhigh := roundHalfEven_mul_le n 2
      rw [hplaces, pow_zero, Nat.mul_one, Nat.div_one]
      omega
    · have hne : n / 2 ≠ 0 := by omega
      have hself : 2 ^ (n / 2).log2 ≤ n / 2 := Nat.log2_self_le hne
      have hlog : 53 ≤ (n / 2).log2 := by
        rw [Nat.le_log2 hne]
        omega
      obtain ⟨e, he⟩ := Nat.exists_eq_add_of_le hlog
      have hunit : (n / 2).log2 - 52 = e + 1 := by omega
      have hpow : 2 ^ (n / 2).log2 = 2 ^ 52 * 2 ^ (e + 1) := by
        rw [he, ← pow_add]
        congr 1
        omega
      rw [hunit]
      have hpos : 0 < 2 ^ (e + 1) := Nat.two_pow_pos _
      have hlow := roundHalfEven_ge n (2 * 2 ^ (e + 1))
      have hhigh := roundHalfEven_mul_le n (2 * 2 ^ (e + 1))
      have hone : 1 ≤ n / (2 * 2 ^ (e + 1)) := by
        rw [Nat.le_div_iff_mul_le (by omega)]
        omega
      refine ⟨Nat.mul_pos (by omega) hpos, ?_⟩
      have hassoc : 2 * (roundHalfEven n (2 * 2 ^ (e + 1)) * (2 * 2 ^ (e + 1))) =
          4 * (roundHalfEven n (2 * 2 ^ (e + 1)) * 2 ^ (e + 1)) := by ring
      rw [hassoc] at hhigh
      omega

/-- Either a probe strictly inside the interval hits, or the search ends at neighbours, each of which
is an end of the interval or was probed. -/
theorem search_spec (probe : Nat → Ordering) (fuel left right : Nat) (hlt : left < right) (hfuel : right ≤ left + fuel) :
    (∃ mid, search probe fuel left right = .found mid ∧ left < mid ∧ mid < right ∧ probe mid = .eq) ∨
      ∃ l, search probe fuel left right = .gap l (l + 1) ∧ left ≤ l ∧ l + 1 ≤ right ∧
        (l = left ∨ probe l = .lt) ∧ (l + 1 = right ∨ probe (l + 1) = .gt) := by
  induction fuel generalizing left right with
  | zero => omega
  | succ fuel ih =>
      rw [search]
      split_ifs with hloop
      · obtain ⟨hpos, hhalf⟩ := trueDivInt_two_bounds (n := right - left) (by omega)
        have hmid : ∃ mid, mid = left + trueDivInt (right - left) 2 ∧ left < mid ∧ mid < right := ⟨_, rfl, by omega, by omega⟩
        obtain ⟨mid, hmid, hlow, hhigh⟩ := hmid
        simp only [← hmid]
        cases hprobe : probe mid with
        | eq => exact .inl ⟨mid, rfl, hlow, hhigh, hprobe⟩
        | gt =>
            rcases ih left mid hlow (by omega) with ⟨m, hm, h1, h2, h3⟩ | ⟨l, hl, h1, h2, h3, h4⟩
            · exact .inl ⟨m, hm, h1, by omega, h3⟩
            · refine .inr ⟨l, hl, h1, by omega, h3, .inr ?_⟩
              rcases h4 with h4 | h4
              · rw [h4, hprobe]
              · exact h4
        | lt =>
            rcases ih mid right hhigh (by omega) with ⟨m, hm, h1, h2, h3⟩ | ⟨l, hl, h1, h2, h3, h4⟩
            · exact .inl ⟨m, hm, by omega, h2, h3⟩
            · refine .inr ⟨l, hl, by omega, h2, .inr ?_, h4⟩
              rcases h3 with h3 | h3
              · rw [h3, hprobe]
              · exact h3
      · right
        exact ⟨left, by rw [show left + 1 = right by omega], le_refl _, by omega, .inl rfl, .inl (by omega)⟩

theorem search_of_le (probe : Nat → Ordering) (fuel left right : Nat) (h : right ≤ left + 1) :
    search probe fuel left right = .gap left right := by
  cases fuel with
  | zero => rfl
  | succ fuel => rw [search, if_neg (by omega)]

end Witcher.Bisection
