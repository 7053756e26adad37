import A32Assembler.Proofs.Float.Rounding
import A32Assembler.Proofs.Machine.FloatUnit
import Mathlib.Data.BitVec
import Mathlib.Data.Set.Finite.Lemmas

/-!
# IEEE 754 units

What is assumed of a floating-point unit: an integer becomes the double with its value, a quotient
becomes a nearest double, and a double becomes the integer that is left when its fraction is cut
off, or the end of the range that the integer is beyond. Under these assumptions the quotient of
two integers, by way of doubles, is their quotient toward zero. A unit of this kind exists.
-/

namespace A32Assembler

/-- The integer that a word stands for, with a sign or without. -/
def Word.integer (signed : Bool) (x : Word) : ℤ := if signed then x.toInt else x.toNat

/-- The word that stands for an integer, or for the end of the range that the integer is beyond. -/
def Word.saturate (signed : Bool) (n : ℤ) : Word :=
  if signed then BitVec.ofInt 32 (max (-2 ^ 31) (min n (2 ^ 31 - 1)))
  else BitVec.ofInt 32 (max 0 (min n (2 ^ 32 - 1)))

namespace Machine.FloatUnit

open Double

/-- The assumptions on the operations that divide integers. Nothing is assumed of quotients by zero
and of quotients too large for a double, nor of what an infinity or a NaN is converted to. -/
structure Ieee (u : FloatUnit) : Prop where
  ofInteger_exact : ∀ signed x, value? (u.ofInteger signed x) = some (Word.integer signed x : ℚ)
  divide_nearest : ∀ x y p q, value? x = some p → value? y = some q → q ≠ 0 →
    |p / q| ≤ 2 ^ 1023 → Nearest (u.divide x y) (p / q)
  toInteger_truncates : ∀ signed x v, value? x = some v →
    u.toInteger signed x = Word.saturate signed (truncate v)

variable {u : FloatUnit}

/-- The magnitude of a word needs no more than 32 bits. -/
theorem natAbs_integer_lt (signed : Bool) (x : Word) : (Word.integer signed x).natAbs < 2 ^ 32 := by
  cases signed with
  | false => exact x.isLt
  | true =>
    have := x.toInt_lt
    have := x.le_toInt
    simp only [Word.integer, if_true]
    omega

private theorem div_eq_sign_mul (x y : ℤ) : ∃ negative : Bool,
    (x / y : ℚ) = sign negative * (x.natAbs / y.natAbs) ∧
      x.tdiv y = (if negative then -1 else 1) * (x.natAbs / y.natAbs : ℕ) := by
  obtain ⟨a, rfl | rfl⟩ := x.eq_nat_or_neg <;> obtain ⟨b, rfl | rfl⟩ := y.eq_nat_or_neg
  · exact ⟨false, by simp [sign], by simp⟩
  · exact ⟨true, by simp [sign, div_neg], by simp⟩
  · exact ⟨true, by simp [sign, neg_div], by simp⟩
  · exact ⟨false, by simp [sign], by simp⟩

/-- The quotient of two integers by way of doubles is their quotient toward zero, as far as it is in
range. -/
theorem Ieee.toInteger_divide (h : u.Ieee) (signed : Bool) (x : Word) {y : Word} (hy : y ≠ 0) :
    u.toInteger signed (u.divide (u.ofInteger signed x) (u.ofInteger signed y)) =
      Word.saturate signed ((Word.integer signed x).tdiv (Word.integer signed y)) := by
  have divisor : Word.integer signed y ≠ 0 := by
    intro zero
    apply hy
    cases signed with
    | false => exact BitVec.eq_of_toNat_eq (Int.ofNat_eq_zero.mp zero)
    | true => exact BitVec.eq_of_toInt_eq zero
  have ha := natAbs_integer_lt signed x
  have hb := natAbs_integer_lt signed y
  have positive : 0 < (Word.integer signed y).natAbs := Int.natAbs_pos.mpr divisor
  obtain ⟨negative, quotient, cut⟩ := div_eq_sign_mul (Word.integer signed x)
    (Word.integer signed y)
  have moderate : |(Word.integer signed x / Word.integer signed y : ℚ)| ≤ 2 ^ 1023 := by
    rw [quotient, abs_sign_mul, abs_of_nonneg (by positivity)]
    calc ((Word.integer signed x).natAbs / (Word.integer signed y).natAbs : ℚ)
        ≤ (Word.integer signed x).natAbs :=
          div_le_self (Nat.cast_nonneg _) (by exact_mod_cast positive)
      _ ≤ 2 ^ 32 := by exact_mod_cast Nat.le_of_lt ha
      _ ≤ 2 ^ 1023 := pow_le_pow_right₀ (by norm_num) (by norm_num)
  have nearest := h.divide_nearest _ _ _ _ (h.ofInteger_exact signed x)
    (h.ofInteger_exact signed y) (by exact_mod_cast divisor) moderate
  rw [quotient] at nearest
  obtain ⟨v, value, truncated⟩ := nearest.truncate_eq positive ha hb
  rw [h.toInteger_truncates signed _ v value, truncated, cut]

/-- Every number has a nearest double. -/
theorem exists_nearest (q : ℚ) : ∃ x, Nearest x q := by
  have finite : Finite Doubleword := Finite.of_injective BitVec.toFin BitVec.toFin_injective
  obtain ⟨x, has_value, least⟩ := Set.exists_min_image {x | (value? x).isSome}
    (fun x ↦ |(value? x).getD 0 - q|) (Set.toFinite _) ⟨pattern false 0 0, by simp [value?_zero]⟩
  obtain ⟨v, hv⟩ := Option.isSome_iff_exists.mp has_value
  refine ⟨x, v, hv, ?_⟩
  intro y r hr
  have closer := least y (by simp [hr])
  simpa [hv, hr] using closer

/-- A unit that meets the assumptions. Where they say nothing it follows the standard: a quotient by
zero is an infinity or, of zero, a NaN, a NaN becomes zero, and an infinity the end of the range. -/
noncomputable def reference : FloatUnit where
  ofInteger signed x := Classical.choose
    (exists_value_int (lt_trans (natAbs_integer_lt signed x) (by norm_num)))
  divide x y :=
    match value? x, value? y with
    | some p, some q =>
      if q = 0 then pattern (x.msb != y.msb) 2047 (if p = 0 then 2 ^ 51 else 0)
      else Classical.choose (exists_nearest (p / q))
    | _, _ => pattern false 2047 (2 ^ 51)
  toInteger signed x :=
    match value? x with
    | some v => Word.saturate signed (truncate v)
    | none => if fraction x ≠ 0 then 0 else Word.saturate signed (if x.msb then -2 ^ 64 else 2 ^ 64)

/-- The reference unit meets the assumptions. -/
theorem ieee_reference : reference.Ieee where
  ofInteger_exact signed x := Classical.choose_spec
    (exists_value_int (lt_trans (natAbs_integer_lt signed x) (by norm_num)))
  divide_nearest x y p q hx hy hq _ := by
    simp only [reference, hx, hy, hq, if_false]
    exact Classical.choose_spec (exists_nearest (p / q))
  toInteger_truncates signed x v hx := by
    simp only [reference, hx]

end Machine.FloatUnit

end A32Assembler
