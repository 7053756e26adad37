import A32Assembler.Proofs.Float.Expansion
import A32Assembler.Proofs.Float.Value

/-!
# Widening

The rational number that a single-precision pattern stands for, and the pattern of double precision
that it is widened to. Widening keeps every number, those too small for a hidden bit included. A
pattern has an 8-bit form exactly if it is one of the 256 patterns that eight bits stand for, and a
number has the same 8-bit form in both precisions.
-/

namespace A32Assembler

namespace Single

open Double (sign pattern)

/-- The biased exponent of a single. -/
def exponent (x : Word) : Nat := (x.extractLsb' 23 8).toNat

/-- The fraction field of a single. -/
def fraction (x : Word) : Nat := (x.extractLsb' 0 23).toNat

/-- Whether the sign bit of a single is set. -/
def isNegative (x : Word) : Bool := x.extractLsb' 31 1 = 1#1

/-- The significand of a finite single as an integer: the hidden bit is set unless its exponent
field is zero. -/
def significand (x : Word) : Nat := if exponent x = 0 then fraction x else 2 ^ 23 + fraction x

/-- The number that a pattern stands for; infinities and NaNs stand for none. -/
def value? (x : Word) : Option ℚ :=
  if exponent x = 255 then none
  else some (sign (isNegative x) * (significand x * 2 ^ ((max 1 (exponent x) : ℤ) - 150)))

variable {x y : Word}

/-- The exponent field has eight bits. -/
theorem exponent_lt (x : Word) : exponent x < 2 ^ 8 := (x.extractLsb' 23 8).isLt

/-- The fraction field has 23 bits. -/
theorem fraction_lt (x : Word) : fraction x < 2 ^ 23 := (x.extractLsb' 0 23).isLt

/-- A one-bit vector is made of the truth value that says whether it is set. -/
theorem ofBool_set (s : BitVec 1) : BitVec.ofBool (s = 1#1) = s := by
  revert s
  decide

/-- Truth values are told by the one-bit vectors made of them. -/
theorem ofBool_inj {a b : Bool} : BitVec.ofBool a = BitVec.ofBool b ↔ a = b := by
  revert a b
  decide

/-- A pattern is told by its sign, its exponent and its fraction. -/
theorem eq_of_fields (signs : isNegative x = isNegative y) (exponents : exponent x = exponent y)
    (fractions : fraction x = fraction y) : x = y := by
  have joined (z : Word) :
      z = BitVec.ofBool (isNegative z) ++ z.extractLsb' 23 8 ++ z.extractLsb' 0 23 := by
    have upper : z.extractLsb' 31 1 ++ z.extractLsb' 23 8 = z.extractLsb' 23 9 :=
      BitVec.extractLsb'_append_extractLsb'_eq_extractLsb' rfl
    have whole : z.extractLsb' 23 9 ++ z.extractLsb' 0 23 = z.extractLsb' 0 32 :=
      BitVec.extractLsb'_append_extractLsb'_eq_extractLsb' rfl
    rw [isNegative, ofBool_set, upper, whole, BitVec.extractLsb'_eq_self]
  rw [joined x, joined y, signs, BitVec.eq_of_toNat_eq exponents, BitVec.eq_of_toNat_eq fractions]

/-- A sign above the bits of a number. -/
theorem sign_or_eq_append (s : BitVec 1) {n : Nat} (short : n < 2 ^ 63) :
    (s.setWidth 64 <<< 63 ||| BitVec.ofNat 64 n : Doubleword) = s ++ BitVec.ofNat 63 n := by
  apply BitVec.eq_of_getLsbD_eq
  intro i hi
  rw [BitVec.getLsbD_or, BitVec.getLsbD_shiftLeft, BitVec.getLsbD_append, BitVec.getLsbD_ofNat,
    BitVec.getLsbD_ofNat, BitVec.getLsbD_setWidth]
  by_cases low : i < 63
  · simp [low, hi]
  · have top : i = 63 := by omega
    subst top
    simp [Nat.testBit_lt_two_pow short]

/-- A sign, an exponent and a fraction put side by side are the pattern with these fields. -/
theorem join_eq_pattern (s : BitVec 1) {e f : Nat} (he : e < 2 ^ 11) (hf : f < 2 ^ 52) :
    (s.setWidth 64 <<< 63 ||| BitVec.ofNat 64 (e <<< 52 + f) : Doubleword) =
      pattern (s = 1#1) e f := by
  have bound : e <<< 52 + f < 2 ^ 63 := by
    rw [Nat.shiftLeft_eq]
    omega
  have low : BitVec.ofNat 11 e ++ BitVec.ofNat 52 f = BitVec.ofNat 63 (e <<< 52 + f) := by
    apply BitVec.eq_of_toNat_eq
    rw [BitVec.toNat_append, BitVec.toNat_ofNat, BitVec.toNat_ofNat, BitVec.toNat_ofNat,
      Nat.mod_eq_of_lt he, Nat.mod_eq_of_lt hf, Nat.mod_eq_of_lt bound,
      Nat.shiftLeft_add_eq_or_of_lt hf]
  rw [pattern, low, ofBool_set, sign_or_eq_append s bound]

/-- Infinities and NaNs keep their kind. -/
theorem exists_widen_special (special : exponent x = 255) :
    ∃ f < 2 ^ 52, widen x = pattern (isNegative x) 2047 f := by
  have short : fraction x <<< 29 < 2 ^ 52 := by
    have := fraction_lt x
    rw [Nat.shiftLeft_eq]
    omega
  have bound : (if fraction x = 0 then 0 else 1 <<< 51 ||| fraction x <<< 29) < 2 ^ 52 := by
    split
    · decide
    · exact Nat.or_lt_two_pow (by decide) short
  refine ⟨_, bound, ?_⟩
  rw [isNegative, ← join_eq_pattern _ (by decide) bound]
  exact if_pos special

/-- Zeros keep their sign. -/
theorem widen_zero (zero : exponent x = 0) (none : fraction x = 0) :
    widen x = pattern (isNegative x) 0 0 := by
  rw [isNegative, ← join_eq_pattern _ (by decide) (by decide)]
  simp only [exponent, fraction] at zero none
  simp [widen, zero, none]

/-- The highest bit of a number without a hidden bit becomes the hidden one. -/
theorem exists_widen_small (zero : exponent x = 0) (some : fraction x ≠ 0) :
    ∃ top f, top < 23 ∧ f < 2 ^ 52 ∧ 2 ^ 52 + f = fraction x * 2 ^ (52 - top) ∧
      widen x = pattern (isNegative x) (top + 874) f := by
  obtain ⟨top, highest⟩ : ∃ top, top = (fraction x).log2 := ⟨_, rfl⟩
  have low : 2 ^ top ≤ fraction x := highest ▸ Nat.log2_self_le some
  have high : fraction x < 2 ^ (top + 1) := highest ▸ Nat.lt_log2_self
  have short : top < 23 := highest ▸ (Nat.log2_lt some).mpr (fraction_lt x)
  have total : 2 ^ top * 2 ^ (52 - top) = 2 ^ 52 := by
    rw [← Nat.pow_add, Nat.add_sub_of_le (by omega)]
  have whole : 2 ^ 52 + (fraction x - 1 <<< top) <<< (52 - top) =
      fraction x * 2 ^ (52 - top) := by
    rw [Nat.shiftLeft_eq, Nat.one_shiftLeft, Nat.sub_mul, total]
    have := Nat.mul_le_mul_right (2 ^ (52 - top)) low
    omega
  have bound : fraction x * 2 ^ (52 - top) < 2 ^ 53 := by
    have := Nat.mul_lt_mul_of_pos_right high (Nat.two_pow_pos (52 - top))
    rwa [Nat.pow_succ, Nat.mul_right_comm, total] at this
  have inside : (fraction x - 1 <<< top) <<< (52 - top) < 2 ^ 52 := by omega
  refine ⟨top, _, short, inside, whole, ?_⟩
  rw [isNegative, ← join_eq_pattern _ (by omega) inside, highest]
  have finite : exponent x ≠ 255 := by omega
  exact (if_neg finite).trans ((if_pos zero).trans (if_neg some))

/-- Any other number gets the larger bias and a longer fraction. -/
theorem widen_normal (pos : 0 < exponent x) (finite : exponent x < 255) :
    widen x = pattern (isNegative x) (exponent x + 896) (fraction x * 2 ^ 29) := by
  have := fraction_lt x
  rw [isNegative, ← join_eq_pattern _ (by omega) (by omega), ← Nat.shiftLeft_eq]
  exact (if_neg (Nat.ne_of_lt finite)).trans (if_neg (Nat.ne_of_gt pos))

/-- A power of two moves from an integer to its scale. -/
theorem mul_two_pow_mul_zpow (m k : ℕ) (e : ℤ) :
    ((m * 2 ^ k : ℕ) : ℚ) * 2 ^ e = m * 2 ^ (k + e) := by
  rw [zpow_add₀ two_ne_zero, zpow_natCast, Nat.cast_mul, Nat.cast_pow, Nat.cast_ofNat, mul_assoc]

/-- A widened pattern stands for the same number. -/
theorem value?_widen (x : Word) : Double.value? (widen x) = value? x := by
  have below := exponent_lt x
  have short := fraction_lt x
  obtain special | zero | ⟨pos, finite⟩ :
      exponent x = 255 ∨ exponent x = 0 ∨ 0 < exponent x ∧ exponent x < 255 := by omega
  · obtain ⟨f, -, wide⟩ := exists_widen_special special
    rw [wide, value?, if_pos special, Double.value?, if_pos (Double.exponent_pattern (by decide))]
  · have scale : (max 1 (exponent x) : ℤ) - 150 = -149 := by omega
    rw [value?, if_neg (by omega), significand, if_pos zero, scale]
    by_cases none : fraction x = 0
    · rw [widen_zero zero none, none]
      simp [Double.value?, Double.significand, Double.exponent_pattern, Double.fraction_pattern]
    · obtain ⟨top, f, below, inside, whole, wide⟩ := exists_widen_small zero none
      have scale' : ((52 - top : ℕ) : ℤ) + ((top + 874 : ℕ) - 1075) = -149 := by omega
      rw [wide, Double.value?_pattern (by omega) (by omega) inside, whole, mul_two_pow_mul_zpow,
        scale']
  · have scale : ((29 : ℕ) : ℤ) + ((exponent x + 896 : ℕ) - 1075) =
        max (1 : ℤ) (exponent x) - 150 := by omega
    have whole : 2 ^ 52 + fraction x * 2 ^ 29 = (2 ^ 23 + fraction x) * 2 ^ 29 := by omega
    rw [widen_normal pos finite, Double.value?_pattern (by omega) (by omega) (by omega), whole,
      mul_two_pow_mul_zpow, scale, value?, if_neg (by omega), significand, if_neg (by omega)]

/-- No other pattern is widened to the same as a number with a hidden bit. -/
theorem eq_of_widen_eq (pos : 0 < exponent y) (finite : exponent y < 255)
    (same : widen x = widen y) : x = y := by
  have short_x := fraction_lt x
  have short_y := fraction_lt y
  have wide_y := same.trans (widen_normal pos finite)
  have exponent_y : Double.exponent (widen x) = exponent y + 896 := by
    rw [wide_y, Double.exponent_pattern (by omega)]
  have below := exponent_lt x
  obtain special | zero | ⟨pos_x, finite_x⟩ :
      exponent x = 255 ∨ exponent x = 0 ∨ 0 < exponent x ∧ exponent x < 255 := by omega
  · obtain ⟨f, -, wide⟩ := exists_widen_special special
    rw [wide, Double.exponent_pattern (by decide)] at exponent_y
    omega
  · by_cases none : fraction x = 0
    · rw [widen_zero zero none, Double.exponent_pattern (by decide)] at exponent_y
      omega
    · obtain ⟨top, f, short, -, -, wide⟩ := exists_widen_small zero none
      rw [wide, Double.exponent_pattern (by omega)] at exponent_y
      omega
  · have wide_x := widen_normal pos_x finite_x
    rw [wide_x, Double.exponent_pattern (by omega)] at exponent_y
    have fraction_y := congrArg Double.fraction (wide_x.symm.trans wide_y)
    rw [Double.fraction_pattern (by omega), Double.fraction_pattern (by omega)] at fraction_y
    have sign_y := congrArg (BitVec.extractLsb' 63 1) (wide_x.symm.trans wide_y)
    rw [Double.sign_pattern, Double.sign_pattern, ofBool_inj] at sign_y
    exact eq_of_fields sign_y (by omega) (by omega)

/-- Eight bits stand for numbers with a hidden bit. -/
theorem exponent_expand (imm8 : Byte) :
    0 < exponent (expand imm8) ∧ exponent (expand imm8) < 255 := by
  revert imm8
  decide +kernel

/-- Eight bits stand for the same number in both precisions. -/
theorem widen_expand (imm8 : Byte) : widen (expand imm8) = Double.expand imm8 := by
  revert imm8
  decide +kernel

/-- Only what eight bits stand for is widened to something that eight bits stand for. -/
theorem immediate?_widen (x : Word) : Double.immediate? (widen x) = immediate? x := by
  refine Option.ext fun imm8 ↦ ?_
  rw [immediate?_eq_some, Double.immediate?_eq_some, ← widen_expand]
  obtain ⟨pos, finite⟩ := exponent_expand imm8
  exact ⟨fun same ↦ (eq_of_widen_eq pos finite same.symm).symm, congrArg widen⟩

end Single

/-- The 8-bit form of a constant is recognized exactly, in both precisions: a pattern has a form if
and only if the form stands for it, so the patterns without one are all but 256. A single, widened
to the double of the same number, has the form that it had before, or still none. -/
theorem constants_recognized :
    (∀ x imm8, Single.immediate? x = some imm8 ↔ Single.expand imm8 = x) ∧
    (∀ x imm8, Double.immediate? x = some imm8 ↔ Double.expand imm8 = x) ∧
    (∀ x, Single.immediate? x = none ↔ x ∉ Set.range Single.expand) ∧
    (∀ x, Double.immediate? x = none ↔ x ∉ Set.range Double.expand) ∧
    Function.Injective Single.expand ∧ Function.Injective Double.expand ∧
    ∀ x, Double.value? (Single.widen x) = Single.value? x ∧
      Double.immediate? (Single.widen x) = Single.immediate? x := by
  have none_iff {α : Type} {w : Nat} {form? : BitVec w → Option α} {expand : α → BitVec w}
      (exact : ∀ x i, form? x = some i ↔ expand i = x) (x : BitVec w) :
      form? x = none ↔ x ∉ Set.range expand := by
    simp only [Option.eq_none_iff_forall_ne_some, Set.mem_range, not_exists, ne_eq, exact]
  have single (x : Word) (imm8 : Byte) : Single.immediate? x = some imm8 ↔ Single.expand imm8 = x :=
    Single.immediate?_eq_some
  have double (x : Doubleword) (imm8 : Byte) :
      Double.immediate? x = some imm8 ↔ Double.expand imm8 = x := Double.immediate?_eq_some
  exact ⟨single, double, none_iff single, none_iff double, Single.expand_injective,
    Double.expand_injective, fun x ↦ ⟨Single.value?_widen x, Single.immediate?_widen x⟩⟩

end A32Assembler
