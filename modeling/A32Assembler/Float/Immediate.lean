import A32Assembler.Word

/-!
# Floating-point immediates

`vmov` holds a constant in eight bits: a sign, one bit that says whether the exponent is small or
large, two more exponent bits and four fraction bits. These are the numbers
`±(16..31) / 16 * 2 ^ (-3..4)`; zero is not among them.
-/

namespace A32Assembler

namespace Single

/-- The 8-bit form of a single-precision pattern, if it has one. -/
def immediate? (x : Word) : Option Byte :=
  let exponent := x.extractLsb' 25 6
  if x.extractLsb' 0 19 = 0 ∧ (exponent = 0x20 ∨ exponent = 0x1f) then
    some ((x.extractLsb' 31 1).setWidth 8 <<< 7 ||| (x.extractLsb' 29 1).setWidth 8 <<< 6 |||
      (x.extractLsb' 19 6).setWidth 8)
  else none

end Single

namespace Double

/-- The 8-bit form of a double-precision pattern, if it has one. -/
def immediate? (x : Doubleword) : Option Byte :=
  let exponent := x.extractLsb' 54 9
  if x.extractLsb' 0 48 = 0 ∧ (exponent = 0x100 ∨ exponent = 0xff) then
    some ((x.extractLsb' 63 1).setWidth 8 <<< 7 ||| (x.extractLsb' 61 1).setWidth 8 <<< 6 |||
      (x.extractLsb' 48 6).setWidth 8)
  else none

end Double

end A32Assembler
