import A32Assembler.Proofs.Float.Unit

/-!
# Quotients of words

The quotient of two words toward zero: what the division instructions give, and what is left of a
conversion that saturates. Division by zero gives zero, and the one signed quotient that is out of
range wraps.
-/

namespace A32Assembler.Word

/-- The quotient toward zero, modulo the range. -/
def quotient (signed : Bool) (x y : Word) : Word :=
  BitVec.ofInt 32 ((integer signed x).tdiv (integer signed y))

/-- Signed division. -/
theorem quotient_true (x y : Word) : quotient true x y = x.sdiv y := by
  apply BitVec.eq_of_toInt_eq
  rw [BitVec.toInt_sdiv, quotient, BitVec.toInt_ofInt]
  rfl

/-- Unsigned division. -/
theorem quotient_false (x y : Word) : quotient false x y = x / y := by
  have natural : (integer false x).tdiv (integer false y) = ((x.toNat / y.toNat : ℕ) : ℤ) := rfl
  apply BitVec.eq_of_toNat_eq
  have small : x.toNat / y.toNat < 2 ^ 32 := Nat.lt_of_le_of_lt (Nat.div_le_self _ _) x.isLt
  rw [quotient, natural, BitVec.ofInt_natCast, BitVec.toNat_ofNat, Nat.mod_eq_of_lt small,
    BitVec.toNat_udiv]

/-- Division by zero gives zero. -/
theorem quotient_zero (signed : Bool) (x : Word) : quotient signed x 0 = 0 := by
  have zero : integer signed 0 = 0 := by cases signed <;> rfl
  rw [quotient, zero, Int.tdiv_zero]
  rfl

/-- Division by minus one negates. -/
theorem quotient_minus_one (x : Word) : quotient true x (-1) = -x := by
  have minus : integer true (-1) = -1 := rfl
  rw [quotient, minus, Int.tdiv_neg, Int.tdiv_one, BitVec.ofInt_neg]
  exact congrArg Neg.neg BitVec.ofInt_toInt

private theorem tdiv_in_range {x y : Word} (h : y ≠ -1) :
    -2 ^ 31 ≤ x.toInt.tdiv y.toInt ∧ x.toInt.tdiv y.toInt ≤ 2 ^ 31 - 1 := by
  have low := x.le_toInt
  have high := x.toInt_lt
  by_cases one : y.toInt = 1
  · rw [one, Int.tdiv_one]
    omega
  · have minus : y.toInt ≠ -1 := fun same ↦ h (BitVec.eq_of_toInt_eq same)
    -- any other divisor halves the magnitude at least
    have magnitude : (x.toInt.tdiv y.toInt).natAbs ≤ x.toInt.natAbs / 2 := by
      rw [Int.natAbs_tdiv]
      rcases Nat.eq_zero_or_pos y.toInt.natAbs with zero | positive
      · rw [zero]
        exact (Nat.div_zero x.toInt.natAbs).trans_le (Nat.zero_le _)
      · exact Nat.div_le_div_left (by omega) (by norm_num)
    omega

/-- A quotient by anything but minus one is in range. -/
theorem saturate_tdiv {signed : Bool} (x : Word) {y : Word} (h : signed = true → y ≠ -1) :
    saturate signed ((integer signed x).tdiv (integer signed y)) = quotient signed x y := by
  cases signed with
  | false =>
    have natural : (integer false x).tdiv (integer false y) = ((x.toNat / y.toNat : ℕ) : ℤ) := rfl
    have small : x.toNat / y.toNat < 2 ^ 32 := Nat.lt_of_le_of_lt (Nat.div_le_self _ _) x.isLt
    rw [saturate, quotient, natural, if_neg Bool.false_ne_true]
    generalize x.toNat / y.toNat = q at small
    congr 1
    omega
  | true =>
    have range := tdiv_in_range (x := x) (h rfl)
    rw [saturate, quotient, if_pos rfl]
    congr 1
    change max (-2 ^ 31) (min (x.toInt.tdiv y.toInt) (2 ^ 31 - 1)) = x.toInt.tdiv y.toInt
    omega

end A32Assembler.Word
