import Mathlib.Data.Nat.Log
import Mathlib.Tactic.Ring
import Mathlib.Tactic.Linarith

/-! The integer part of a floating point quotient. `int(a / b)` divides two integers in binary
floating point with a 53 bit significand, rounding to nearest and ties to even, and then truncates.
Below `2^53` the detour is exact; from there on it is not. -/

namespace Witcher.TrueDivision

/-- The integer nearest to `n / d`, the even one on a tie. -/
def roundHalfEven (n d : Nat) : Nat :=
  if 2 * (n % d) < d then n / d
  else if d < 2 * (n % d) then n / d + 1
  else if (n / d) % 2 = 0 then n / d else n / d + 1

/-- Number of binary places kept after the point for a quotient with integer part `q < 2^53`. -/
def places (q : Nat) : Nat := if q = 0 then 53 else 52 - q.log2

/-- `int(a / b)` for `0 < b`. A quotient of `2^53` or more is rounded to a multiple of a power of two. -/
def trueDivInt (a b : Nat) : Nat :=
  if a / b < 2 ^ 53 then roundHalfEven (a * 2 ^ places (a / b)) b / 2 ^ places (a / b)
  else roundHalfEven a (b * 2 ^ ((a / b).log2 - 52)) * 2 ^ ((a / b).log2 - 52)

theorem roundHalfEven_ge (n d : Nat) : n / d ≤ roundHalfEven n d := by
  unfold roundHalfEven
  split_ifs <;> omega

/-- Rounding up moves by at most half a unit. -/
theorem roundHalfEven_mul_le (n d : Nat) : 2 * (roundHalfEven n d * d) ≤ 2 * n + d := by
  have hdiv := Nat.div_add_mod n d
  have hcomm : d * (n / d) = n / d * d := Nat.mul_comm _ _
  unfold roundHalfEven
  split_ifs with h1 h2 h3 <;> (try rw [Nat.add_mul, Nat.one_mul]) <;> omega

/-- The kept places are enough: half a unit in the last place is less than the distance from
`a / b` to the next integer. -/
theorem lt_mul_two_pow_places (a b : Nat) (hb : 0 < b) (ha : a < 2 ^ 53) :
    a * 2 ^ places (a / b) * 2 + b < 2 * ((a / b + 1) * 2 ^ places (a / b) * b) := by
  have hnext : a + 1 ≤ (a / b + 1) * b := Nat.lt_mul_of_div_lt (Nat.lt_succ_self _) hb
  have hscaled : a * 2 ^ places (a / b) + 2 ^ places (a / b) ≤ (a / b + 1) * 2 ^ places (a / b) * b := by
    calc a * 2 ^ places (a / b) + 2 ^ places (a / b) = (a + 1) * 2 ^ places (a / b) := by ring
      _ ≤ (a / b + 1) * b * 2 ^ places (a / b) := Nat.mul_le_mul_right _ hnext
      _ = (a / b + 1) * 2 ^ places (a / b) * b := by ring
  by_cases hq : a / b = 0
  · have hlt : a < b := by
      rcases Nat.div_eq_zero_iff.mp hq with h | h
      · omega
      · exact h
    rw [hq] at hscaled ⊢
    simp only [places, if_true, Nat.zero_add, Nat.one_mul] at hscaled ⊢
    omega
  · have hlog : 2 ^ (a / b).log2 ≤ a / b := Nat.log2_self_le hq
    have hlog52 : (a / b).log2 < 53 := by
      rw [Nat.log2_lt hq]
      exact lt_of_le_of_lt (Nat.div_le_self a b) ha
    have hplaces : 2 ^ places (a / b) * 2 ^ (a / b).log2 = 2 ^ 52 := by
      rw [places, if_neg hq, ← pow_add]
      congr 1
      omega
    have hbig : 2 ^ 52 ≤ 2 ^ places (a / b) * (a / b) := by
      rw [← hplaces]
      exact Nat.mul_le_mul_left _ hlog
    -- `b` is below twice the scale, since `b * q ≤ a < 2^53 ≤ 2 * scale * q`
    have hb2 : b < 2 * 2 ^ places (a / b) := by
      have hqb : b * (a / b) ≤ a := Nat.mul_div_le a b
      by_contra hle
      have : 2 * 2 ^ places (a / b) * (a / b) ≤ b * (a / b) := Nat.mul_le_mul_right _ (by omega)
      have h53 : (2 : Nat) ^ 53 = 2 * 2 ^ 52 := by norm_num
      rw [Nat.mul_assoc] at this
      omega
    omega

/-- Below `2^53` the truncated quotient is the integer quotient. -/
theorem trueDivInt_eq_div (a b : Nat) (hb : 0 < b) (ha : a < 2 ^ 53) : trueDivInt a b = a / b := by
  have hq : a / b < 2 ^ 53 := lt_of_le_of_lt (Nat.div_le_self a b) ha
  rw [trueDivInt, if_pos hq]
  have hscale : 0 < 2 ^ places (a / b) := Nat.two_pow_pos _
  apply Nat.div_eq_of_lt_le
  · calc a / b * 2 ^ places (a / b) ≤ a * 2 ^ places (a / b) / b := by
          rw [Nat.le_div_iff_mul_le hb]
          calc a / b * 2 ^ places (a / b) * b = a / b * b * 2 ^ places (a / b) := by ring
            _ ≤ a * 2 ^ places (a / b) := Nat.mul_le_mul_right _ (Nat.div_mul_le_self a b)
      _ ≤ _ := roundHalfEven_ge _ _
  · have hround := roundHalfEven_mul_le (a * 2 ^ places (a / b)) b
    have hbound := lt_mul_two_pow_places a b hb ha
    have hmul : roundHalfEven (a * 2 ^ places (a / b)) b * b < (a / b + 1) * 2 ^ places (a / b) * b := by omega
    exact Nat.lt_of_mul_lt_mul_right hmul

theorem roundHalfEven_le (n d : Nat) : roundHalfEven n d ≤ n / d + 1 := by
  unfold roundHalfEven
  split_ifs <;> omega

/-- The quotient is never far above the dividend. -/
theorem trueDivInt_le (a b : Nat) : trueDivInt a b ≤ 2 * a + 1 := by
  have hdiv : a / b ≤ a := Nat.div_le_self a b
  rw [trueDivInt]
  split_ifs with hq
  · have hround := roundHalfEven_le (a * 2 ^ places (a / b)) b
    have hle : a * 2 ^ places (a / b) / b ≤ a * 2 ^ places (a / b) := Nat.div_le_self _ _
    have hpos : 0 < 2 ^ places (a / b) := Nat.two_pow_pos _
    calc roundHalfEven (a * 2 ^ places (a / b)) b / 2 ^ places (a / b)
        ≤ (a + 1) * 2 ^ places (a / b) / 2 ^ places (a / b) := by
          apply Nat.div_le_div_right
          rw [Nat.add_mul, Nat.one_mul]
          omega
      _ = a + 1 := Nat.mul_div_cancel _ hpos
      _ ≤ 2 * a + 1 := by omega
  · have hpow : 2 ^ ((a / b).log2 - 52) ≤ a / b :=
      le_trans (Nat.pow_le_pow_right (by decide) (Nat.sub_le _ _)) (Nat.log2_self_le (by omega))
    have hround := roundHalfEven_le a (b * 2 ^ ((a / b).log2 - 52))
    have hmul : a / (b * 2 ^ ((a / b).log2 - 52)) * 2 ^ ((a / b).log2 - 52) ≤ a := by
      rw [← Nat.div_div_eq_div_mul]
      exact le_trans (Nat.div_mul_le_self _ _) hdiv
    have hscaled := Nat.mul_le_mul_right (2 ^ ((a / b).log2 - 52)) hround
    rw [Nat.add_mul, Nat.one_mul] at hscaled
    omega

/-! ### The nearest double -/

/-- The double nearest to `a`, with an even significand on a tie. -/
def nearestDouble (a : Nat) : Nat :=
  if a < 2 ^ 53 then a else roundHalfEven a (2 ^ (a.log2 - 52)) * 2 ^ (a.log2 - 52)

theorem roundHalfEven_of_dvd {n d : Nat} (h : d ∣ n) : roundHalfEven n d = n / d := by
  have hmod : n % d = 0 := Nat.mod_eq_zero_of_dvd h
  rw [roundHalfEven, hmod]
  by_cases hd : d = 0
  · simp [hd]
  · rw [if_pos (by omega)]

/-- A multiple of `2^k` below `2^(53 + k)` has a significand of 53 bits. -/
theorem nearestDouble_of_dvd {a k : Nat} (hdvd : 2 ^ k ∣ a) (ha : a < 2 ^ (53 + k)) : nearestDouble a = a := by
  rw [nearestDouble]
  split_ifs with hsmall
  · rfl
  · have hlog : a.log2 < 53 + k := (Nat.log2_lt (by omega)).mpr ha
    have hscale : 2 ^ (a.log2 - 52) ∣ a := dvd_trans (Nat.pow_dvd_pow 2 (by omega)) hdvd
    rw [roundHalfEven_of_dvd hscale, Nat.div_mul_cancel hscale]

/-- A multiple of 64 is rounded to one. -/
theorem dvd_nearestDouble {a : Nat} (h : 64 ∣ a) : 64 ∣ nearestDouble a := by
  by_cases hsmall : a < 2 ^ 59
  · rw [nearestDouble_of_dvd (k := 6) h hsmall]
    exact h
  · have hlog : 59 ≤ a.log2 := (Nat.le_log2 (by omega)).mpr (by omega)
    rw [nearestDouble, if_neg (by omega)]
    have hscale : 2 ^ 6 ∣ 2 ^ (a.log2 - 52) := Nat.pow_dvd_pow 2 (by omega)
    exact dvd_mul_of_dvd_right hscale _

/-- Rounding a double down to a multiple of 64 gives a double. -/
theorem nearestDouble_floor (a : Nat) : nearestDouble (nearestDouble a / 64 * 64) = nearestDouble a / 64 * 64 := by
  by_cases hsmall : a < 2 ^ 53
  · have ha : nearestDouble a = a := if_pos hsmall
    rw [ha, nearestDouble, if_pos (by omega)]
  · obtain ⟨k, hk⟩ : ∃ k, k = a.log2 - 52 := ⟨_, rfl⟩
    have hlow : 53 ≤ a.log2 := (Nat.le_log2 (by omega)).mpr (by omega)
    have hhigh : a < 2 ^ (53 + k) := by
      rw [hk, show 53 + (a.log2 - 52) = a.log2 + 1 by omega]
      exact Nat.lt_log2_self
    have hround : roundHalfEven a (2 ^ k) ≤ 2 ^ 53 := by
      have hdiv : a / 2 ^ k < 2 ^ 53 := by
        rw [Nat.div_lt_iff_lt_mul (Nat.two_pow_pos k), ← pow_add]
        exact hhigh
      exact le_trans (roundHalfEven_le a (2 ^ k)) hdiv
    have hvalue : nearestDouble a = roundHalfEven a (2 ^ k) * 2 ^ k := by rw [nearestDouble, if_neg hsmall, hk]
    have hle : nearestDouble a ≤ 2 ^ (53 + k) := by
      rw [hvalue, pow_add]
      exact Nat.mul_le_mul_right _ hround
    by_cases hsix : k < 6
    · apply nearestDouble_of_dvd (k := 6) (Nat.dvd_mul_left 64 _)
      calc nearestDouble a / 64 * 64 ≤ nearestDouble a := Nat.div_mul_le_self _ _
        _ ≤ 2 ^ (53 + k) := hle
        _ < 2 ^ (53 + 6) := Nat.pow_lt_pow_right (by decide) (by omega)
    · have hdvd : 2 ^ k ∣ nearestDouble a := hvalue ▸ Nat.dvd_mul_left _ _
      have hdvd64 : 64 ∣ nearestDouble a := dvd_trans (Nat.pow_dvd_pow 2 (by omega : 6 ≤ k)) hdvd
      rw [Nat.div_mul_cancel hdvd64]
      rcases lt_or_eq_of_le hle with hlt | heq
      · exact nearestDouble_of_dvd hdvd hlt
      · -- the significand was rounded up to a power of two
        rw [heq]
        exact nearestDouble_of_dvd (Nat.dvd_refl _) (Nat.pow_lt_pow_right (by decide) (by omega))

theorem roundHalfEven_mul_right (n d : Nat) {c : Nat} (hc : 0 < c) : roundHalfEven (n * c) (d * c) = roundHalfEven n d := by
  have hlt : 2 * (n % d * c) < d * c ↔ 2 * (n % d) < d := by
    rw [← Nat.mul_assoc]
    exact Nat.mul_lt_mul_right hc
  have hgt : d * c < 2 * (n % d * c) ↔ d < 2 * (n % d) := by
    rw [← Nat.mul_assoc]
    exact Nat.mul_lt_mul_right hc
  simp only [roundHalfEven, Nat.mul_mod_mul_right, Nat.mul_div_mul_right n d hc, hlt, hgt]

/-- Dividing by a power of two is exact, so the quotient is that of the nearest double. -/
theorem trueDivInt_sixtyFour (a : Nat) : trueDivInt a 64 = nearestDouble a / 64 := by
  by_cases hsmall : a < 2 ^ 53
  · rw [trueDivInt_eq_div a 64 (by decide) hsmall, nearestDouble, if_pos hsmall]
  · have hlog : (a / 64).log2 = a.log2 - 6 := by
      rw [Nat.log2_eq_log_two, Nat.log2_eq_log_two]
      exact Nat.log_div_base_pow 2 a 6
    have hne : a ≠ 0 := by omega
    have hlow : 53 ≤ a.log2 := (Nat.le_log2 hne).mpr (by omega)
    rw [nearestDouble, if_neg hsmall, trueDivInt]
    split_ifs with hq
    · have hhigh : a.log2 < 59 := (Nat.log2_lt hne).mpr (by omega)
      have hplaces : places (a / 64) = 58 - a.log2 := by
        rw [places, if_neg (by omega), hlog]
        omega
      have hsplit : 64 = 2 ^ (a.log2 - 52) * 2 ^ (58 - a.log2) := by
        rw [← pow_add, show a.log2 - 52 + (58 - a.log2) = 6 by omega]
        rfl
      have hround : roundHalfEven (a * 2 ^ (58 - a.log2)) 64 = roundHalfEven a (2 ^ (a.log2 - 52)) := by
        conv_lhs => rw [hsplit]
        exact roundHalfEven_mul_right a _ (Nat.two_pow_pos _)
      rw [hplaces, hround]
      conv_rhs => rw [hsplit]
      rw [Nat.mul_comm (2 ^ (a.log2 - 52)), Nat.mul_div_mul_right _ _ (Nat.two_pow_pos _)]
    · have hhigh : 59 ≤ a.log2 := (Nat.le_log2 hne).mpr (by omega)
      have hscale : 64 * 2 ^ (a.log2 - 6 - 52) = 2 ^ (a.log2 - 52) := by
        rw [show 64 = 2 ^ 6 by rfl, ← pow_add]
        congr 1
        omega
      rw [hlog, hscale, ← hscale, Nat.mul_left_comm, Nat.mul_div_cancel_left _ (by decide)]

-- `2^60 + 192` is not representable once divided by 64: the quotient is rounded away from it
example : trueDivInt (2 ^ 60 + 192) 64 * 64 = 2 ^ 60 + 256 := by decide +kernel

end Witcher.TrueDivision
