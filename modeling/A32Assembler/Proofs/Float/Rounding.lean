import A32Assembler.Proofs.Float.Value

/-!
# Rounding of quotients

A quotient of two 32-bit integers, rounded to the nearest double, is cut to the same integer as the
quotient itself. Rounding can only reach the next integer from a quotient that is closer to it than
any double below it; but the quotient is at least one divisor's part away from the next integer, and
a double lies in between.
-/

namespace A32Assembler.Double

/-- The pattern stands for a number that no other double is closer to `q` than. -/
def Nearest (x : Doubleword) (q : ℚ) : Prop :=
  ∃ v, value? x = some v ∧ ∀ y r, value? y = some r → |v - q| ≤ |r - q|

/-- A number cut toward zero. -/
def truncate (v : ℚ) : ℤ := if 0 ≤ v then ⌊v⌋ else ⌈v⌉

/-- Cutting respects the sign. -/
theorem truncate_neg (v : ℚ) : truncate (-v) = -truncate v := by
  unfold truncate
  rcases lt_trichotomy v 0 with negative | rfl | positive
  · rw [if_pos (by linarith), if_neg (by linarith), Int.floor_neg]
  · simp
  · rw [if_neg (by linarith), if_pos (by linarith), Int.ceil_neg]

/-- A number between an integer and the next one is cut to the integer. -/
theorem truncate_eq {v : ℚ} {n : ℕ} (low : (n : ℚ) ≤ v) (high : v < n + 1) : truncate v = n := by
  have nonneg : 0 ≤ v := le_trans (Nat.cast_nonneg n) low
  rw [truncate, if_pos nonneg, Int.floor_eq_iff]
  exact ⟨by exact_mod_cast low, by exact_mod_cast high⟩

/-- Between a quotient and the integer above it, strictly below the integer, lies an integer of few
bits divided by a power of two. -/
theorem exists_between {a b : ℕ} (hb : 0 < b) (ha : a < 2 ^ 32) (hb' : b < 2 ^ 32) :
    ∃ m k : ℕ, m < 2 ^ 53 ∧ k ≤ 1000 ∧ (a / b : ℚ) ≤ m / 2 ^ k ∧
      (m / 2 ^ k : ℚ) < (a / b : ℕ) + 1 := by
  have positive : b ≠ 0 := Nat.ne_of_gt hb
  obtain ⟨k, le_power, power_le, few⟩ : ∃ k, b ≤ 2 ^ k ∧ 2 ^ k ≤ 2 * b ∧ k ≤ 32 := by
    refine ⟨b.log2 + 1, Nat.le_of_lt Nat.lt_log2_self, ?_, (Nat.log2_lt positive).mpr hb'⟩
    rw [Nat.pow_succ, Nat.mul_comm]
    exact Nat.mul_le_mul_left 2 (Nat.log2_self_le positive)
  have next : a + 1 ≤ (a / b + 1) * b := Nat.lt_mul_of_div_lt (Nat.lt_succ_self _) hb
  have power_pos : 0 < 2 ^ k := Nat.two_pow_pos k
  -- one unit of the power of two below the integer above the quotient
  obtain ⟨m, unit⟩ : ∃ m, m + 1 = (a / b + 1) * 2 ^ k :=
    ⟨(a / b + 1) * 2 ^ k - 1, Nat.sub_add_cancel (Nat.mul_pos (Nat.succ_pos _) power_pos)⟩
  have above : a * 2 ^ k ≤ m * b := by
    have scaled : (a + 1) * 2 ^ k ≤ (m + 1) * b := by
      rw [unit, Nat.mul_right_comm]
      exact Nat.mul_le_mul_right _ next
    rw [Nat.add_mul, Nat.add_mul] at scaled
    omega
  have bits : m < 2 ^ 53 := by
    have whole : a / b * b ≤ a := Nat.div_mul_le_self a b
    have bound : (a / b + 1) * 2 ^ k ≤ (a / b + 1) * (2 * b) := Nat.mul_le_mul_left _ power_le
    have split : (a / b + 1) * (2 * b) = 2 * (a / b * b) + 2 * b := by ring
    omega
  have power_pos' : (0 : ℚ) < 2 ^ k := by positivity
  have divisor_pos : (0 : ℚ) < b := by exact_mod_cast hb
  refine ⟨m, k, bits, by omega, ?_, ?_⟩
  · rw [div_le_div_iff₀ divisor_pos power_pos']
    exact_mod_cast above
  · rw [div_lt_iff₀ power_pos']
    have lt : m < (a / b + 1) * 2 ^ k := by omega
    exact_mod_cast lt

/-- A number that no double is closer to a quotient than lies between the integers around the
quotient. -/
theorem floor_le_of_nearest {a b : ℕ} {v : ℚ} (hb : 0 < b) (ha : a < 2 ^ 32) (hb' : b < 2 ^ 32)
    (nearest : ∀ m k : ℕ, m < 2 ^ 53 → k ≤ 1000 → |v - a / b| ≤ |(m : ℚ) / 2 ^ k - a / b|) :
    ((a / b : ℕ) : ℚ) ≤ v ∧ v < (a / b : ℕ) + 1 := by
  have divisor_pos : (0 : ℚ) < b := by exact_mod_cast hb
  constructor
  · -- the integer below the quotient is a double
    by_contra smaller
    push Not at smaller
    have below : ((a / b : ℕ) : ℚ) ≤ a / b := by
      rw [le_div_iff₀ divisor_pos]
      exact_mod_cast Nat.div_mul_le_self a b
    have short : a / b ≤ a := Nat.div_le_self a b
    have closer := nearest (a / b) 0 (by omega) (Nat.zero_le _)
    rw [pow_zero, div_one, abs_of_nonpos (by linarith), abs_of_nonpos (by linarith)] at closer
    linarith
  · by_contra larger
    push Not at larger
    obtain ⟨m, k, bits, few, above, below_next⟩ := exists_between hb ha hb'
    have closer := nearest m k bits few
    rw [abs_of_nonneg (by linarith), abs_of_nonneg (by linarith)] at closer
    linarith

/-- The double nearest to a quotient of 32-bit magnitudes is cut to the quotient of the integers. -/
theorem Nearest.truncate_eq {a b : ℕ} {x : Doubleword} {negative : Bool} (hb : 0 < b)
    (ha : a < 2 ^ 32) (hb' : b < 2 ^ 32) (nearest : Nearest x (sign negative * (a / b))) :
    ∃ v, value? x = some v ∧ truncate v = (if negative then -1 else 1) * (a / b : ℕ) := by
  obtain ⟨v, value, closest⟩ := nearest
  refine ⟨v, value, ?_⟩
  have flip (r : ℚ) : |r - sign negative * (a / b)| = |sign negative * r - a / b| := by
    rw [← abs_sign_mul negative, mul_sub, ← mul_assoc, sign_mul_sign, one_mul]
  have between := floor_le_of_nearest (v := sign negative * v) hb ha hb' (by
    intro m k bits few
    obtain ⟨y, hy⟩ := exists_value bits few negative
    have closer := closest y _ hy
    rwa [flip, flip, ← mul_assoc, sign_mul_sign, one_mul] at closer)
  cases negative with
  | false => simpa [sign] using Double.truncate_eq between.1 between.2
  | true =>
    have opposite := Double.truncate_eq between.1 between.2
    simp only [sign, if_true, neg_one_mul, truncate_neg] at opposite ⊢
    omega

end A32Assembler.Double
