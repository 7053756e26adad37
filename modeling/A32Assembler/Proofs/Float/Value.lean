import A32Assembler.Float.Binary
import Mathlib.Algebra.Order.Floor.Ring
import Mathlib.Data.Rat.Floor
import Mathlib.Tactic.FieldSimp
import Mathlib.Tactic.Linarith
import Mathlib.Tactic.NormNum
import Mathlib.Tactic.Positivity
import Mathlib.Tactic.Ring

/-!
# Values of doubles

The rational number that a double-precision pattern stands for, and the numbers that have a pattern:
every integer of at most 53 bits, divided by a power of two that is not too large.
-/

namespace A32Assembler.Double

/-- The significand of a finite double as an integer: the hidden bit is set unless its exponent
field is zero. -/
def significand (x : Doubleword) : Nat :=
  if exponent x = 0 then fraction x else 2 ^ 52 + fraction x

/-- The number that a pattern stands for; infinities and NaNs stand for none. -/
def value? (x : Doubleword) : Option ℚ :=
  if exponent x = 2047 then none
  else
    let magnitude : ℚ := significand x * 2 ^ ((max 1 (exponent x) : ℤ) - 1075)
    some (if x.extractLsb' 63 1 = 1 then -magnitude else magnitude)

/-- The factor of a sign. -/
def sign (negative : Bool) : ℚ := if negative then -1 else 1

/-- A sign is its own inverse. -/
theorem sign_mul_sign (negative : Bool) : sign negative * sign negative = 1 := by
  cases negative <;> simp [sign]

/-- A sign does not change a magnitude. -/
theorem abs_sign_mul (negative : Bool) (r : ℚ) : |sign negative * r| = |r| := by
  cases negative <;> simp [sign]

/-- The pattern with a given sign, exponent field and fraction field. -/
def pattern (negative : Bool) (exponent fraction : Nat) : Doubleword :=
  BitVec.ofBool negative ++ (BitVec.ofNat 11 exponent ++ BitVec.ofNat 52 fraction)

variable {negative : Bool} {e f : Nat}

/-- The sign of a pattern is the one that it was put together with. -/
theorem sign_pattern : (pattern negative e f).extractLsb' 63 1 = BitVec.ofBool negative :=
  BitVec.extractLsb'_append_eq_left

/-- So is its exponent field, if the number fits. -/
theorem exponent_pattern (he : e < 2048) : exponent (pattern negative e f) = e := by
  have field : (pattern negative e f).extractLsb' 52 11 = BitVec.ofNat 11 e := by
    rw [pattern, BitVec.extractLsb'_append_eq_of_add_le (by omega)]
    exact BitVec.extractLsb'_append_eq_left
  rw [exponent, field, BitVec.toNat_ofNat, Nat.mod_eq_of_lt he]

/-- So is its fraction field, if the number fits. -/
theorem fraction_pattern (hf : f < 2 ^ 52) : fraction (pattern negative e f) = f := by
  have field : (pattern negative e f).extractLsb' 0 52 = BitVec.ofNat 52 f := by
    rw [pattern, BitVec.extractLsb'_append_eq_of_add_le (by omega)]
    exact BitVec.extractLsb'_append_eq_right
  rw [fraction, field, BitVec.toNat_ofNat, Nat.mod_eq_of_lt hf]

/-- The value of a pattern with a hidden bit. -/
theorem value?_pattern (he : 0 < e) (he' : e < 2047) (hf : f < 2 ^ 52) :
    value? (pattern negative e f) =
      some (sign negative * ((2 ^ 52 + f : ℕ) * 2 ^ ((e : ℤ) - 1075))) := by
  have bound : max (1 : ℤ) e = e := max_eq_right (by omega)
  simp only [value?, significand, sign_pattern, exponent_pattern (show e < 2048 by omega),
    fraction_pattern hf, show e ≠ 2047 by omega, show e ≠ 0 by omega, if_false, bound]
  cases negative <;> simp [sign]

/-- Zero has a pattern. -/
theorem value?_zero : value? (pattern false 0 0) = some 0 := by
  simp [value?, significand, exponent_pattern, fraction_pattern]

/-- An integer of at most 53 bits, divided by a power of two, has a pattern. -/
theorem exists_value {m k : ℕ} (hm : m < 2 ^ 53) (hk : k ≤ 1000) (negative : Bool) :
    ∃ x, value? x = some (sign negative * (m / 2 ^ k)) := by
  rcases Nat.eq_zero_or_pos m with rfl | pos
  · exact ⟨pattern false 0 0, by simp [value?_zero]⟩
  -- the integer is moved up until its highest bit is the hidden one
  have short : m.log2 ≤ 52 := by
    have := (Nat.log2_lt (Nat.ne_of_gt pos)).mpr hm
    omega
  obtain ⟨t, total⟩ : ∃ t, m.log2 + t = 52 := ⟨52 - m.log2, by omega⟩
  have low : 2 ^ 52 ≤ m * 2 ^ t := by
    rw [← total, Nat.pow_add]
    exact Nat.mul_le_mul_right _ (Nat.log2_self_le (Nat.ne_of_gt pos))
  have high : m * 2 ^ t < 2 ^ 53 := by
    rw [show 53 = m.log2 + 1 + t by omega, Nat.pow_add]
    exact Nat.mul_lt_mul_of_pos_right Nat.lt_log2_self (Nat.two_pow_pos t)
  obtain ⟨f, whole⟩ : ∃ f, 2 ^ 52 + f = m * 2 ^ t := ⟨m * 2 ^ t - 2 ^ 52, by omega⟩
  refine ⟨pattern negative (1075 - k - t) f, ?_⟩
  rw [value?_pattern (by omega) (by omega) (by omega), whole]
  have scale : ((1075 - k - t : ℕ) : ℤ) - 1075 = -(t : ℤ) + -(k : ℤ) := by omega
  rw [scale, zpow_add₀ (by norm_num), zpow_neg, zpow_neg, zpow_natCast, zpow_natCast, Nat.cast_mul,
    Nat.cast_pow, Nat.cast_ofNat]
  congr 2
  field_simp

/-- Every integer of at most 53 bits has a pattern. -/
theorem exists_value_int {n : ℤ} (hn : n.natAbs < 2 ^ 53) : ∃ x, value? x = some (n : ℚ) := by
  rcases Int.natAbs_eq n with same | opposite
  · obtain ⟨x, hx⟩ := exists_value (k := 0) hn (Nat.zero_le _) false
    refine ⟨x, hx.trans ?_⟩
    rw [same]
    simp [sign]
  · obtain ⟨x, hx⟩ := exists_value (k := 0) hn (Nat.zero_le _) true
    refine ⟨x, hx.trans ?_⟩
    rw [opposite]
    simp [sign]

end A32Assembler.Double
