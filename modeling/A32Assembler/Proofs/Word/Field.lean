import A32Assembler.Word
import Mathlib.Algebra.GroupWithZero.Nat
import Mathlib.Algebra.Ring.Int.Defs

/-!
# Fields of composed words

An encoded word joins placed fields with bitwise or. Reading a bit range back from such a word reads
it from every placed field: a field that starts at or below the range contributes its own bits, and
a field that starts above the range, or ends before it, contributes zeros.
-/

namespace A32Assembler.Word

variable {w lsb s l : Nat}

/-- A range that starts inside or above a placed field is a range of the field itself. -/
@[simp] theorem extractLsb'_place_of_le (x : BitVec w) (h : lsb ≤ s) (fits : s + l ≤ 32) :
    (place lsb x).extractLsb' s l = x.extractLsb' (s - lsb) l := by
  apply BitVec.eq_of_getLsbD_eq
  intro i hi
  have inside : s + i < 32 := by omega
  have above : lsb ≤ s + i := by omega
  simp only [BitVec.getLsbD_extractLsb', getLsbD_place, hi, inside, above, decide_true,
    Bool.true_and]
  rw [show s + i - lsb = s - lsb + i by omega]

/-- A range below a placed field reads zeros. -/
@[simp] theorem extractLsb'_place_of_ge (x : BitVec w) (h : s + l ≤ lsb) :
    (place lsb x).extractLsb' s l = 0 := by
  apply BitVec.eq_of_getLsbD_eq
  intro i hi
  have below : ¬ lsb ≤ s + i := by omega
  simp [BitVec.getLsbD_extractLsb', getLsbD_place, below]

/-- A range that starts below a placed field and reaches into it reads the field moved up. -/
@[simp] theorem extractLsb'_place_of_lt (x : BitVec w) (h : s < lsb) (meets : lsb < s + l)
    (fits : s + l ≤ 32) :
    (place lsb x).extractLsb' s l = x.setWidth l <<< (lsb - s) := by
  apply BitVec.eq_of_getLsbD_eq
  intro i hi
  have inside : s + i < 32 := by omega
  simp only [BitVec.getLsbD_extractLsb', getLsbD_place, BitVec.getLsbD_shiftLeft,
    BitVec.getLsbD_setWidth, hi, inside, decide_true, Bool.true_and]
  by_cases low : i < lsb - s
  · have below : ¬ lsb ≤ s + i := by omega
    simp [low, below]
  · have above : lsb ≤ s + i := by omega
    have short : i - (lsb - s) < l := by omega
    simp only [low, above, short, decide_true, decide_false, Bool.not_false, Bool.true_and]
    rw [show s + i - lsb = i - (lsb - s) by omega]

/-- A range past the end of a vector reads zeros. -/
@[simp] theorem extractLsb'_of_ge (x : BitVec w) (h : w ≤ s) : x.extractLsb' s l = 0 := by
  apply BitVec.eq_of_getLsbD_eq
  intro i hi
  simp [BitVec.getLsbD_of_ge x (s + i) (by omega)]

/-- The lowest bit of a one-bit vector is the truth value it was made of. -/
@[simp] theorem extractLsb'_ofBool (b : Bool) :
    (BitVec.ofBool b).extractLsb' 0 1 = BitVec.ofBool b :=
  BitVec.extractLsb'_eq_self

/-- A one-bit vector is set exactly when it was made of a true value. -/
@[simp] theorem ofBool_eq_one {b : Bool} : BitVec.ofBool b = 1#1 ↔ b = true := by
  cases b <;> decide

/-- A range of a range. -/
theorem extractLsb'_extractLsb' {i k : Nat} (x : BitVec w) (inside : i + k ≤ l) :
    (x.extractLsb' s l).extractLsb' i k = x.extractLsb' (s + i) k := by
  apply BitVec.eq_of_getLsbD_eq
  intro j hj
  have there : i + j < l := by omega
  simp [hj, there, Nat.add_assoc]

/-- The low bits of a word, masked, are the range they form. -/
theorem and_low (x : Word) (n : Nat) :
    x &&& (BitVec.allOnes n).setWidth 32 = (x.extractLsb' 0 n).setWidth 32 := by
  apply BitVec.eq_of_getLsbD_eq
  intro i hi
  simp only [BitVec.getLsbD_and, BitVec.getLsbD_setWidth, BitVec.getLsbD_allOnes,
    BitVec.getLsbD_extractLsb', Nat.zero_add, hi, decide_true, Bool.true_and]
  exact Bool.and_comm _ _

/-- A word is its two halves, joined. -/
theorem halves (x : Word) : x.extractLsb' 16 16 ++ x.extractLsb' 0 16 = x :=
  (BitVec.extractLsb'_append_extractLsb'_eq_extractLsb' rfl).trans BitVec.extractLsb'_eq_self

end A32Assembler.Word
