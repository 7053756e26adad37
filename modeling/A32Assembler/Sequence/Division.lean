import A32Assembler.Features
import A32Assembler.Sequence.Constant

/-!
# Integer division

With hardware division the sequence is one instruction. Without it the operands are divided in
double precision, where the quotient of two 32-bit integers loses nothing that rounding toward zero
would keep, and two results are put right by hand: a zero divisor gives zero, and the one signed
quotient that does not fit, which the conversion would saturate, is the negated dividend.
-/

namespace A32Assembler.Sequence

/-- The quotient in `IP`, computed in double precision. -/
def floatQuotient (signed : Bool) (left right : Register) (dl dr : DRegister)
    (sl sr : SRegister) : List FloatInstruction :=
  [.moveCore false sl left, .ofInteger signed dl sl,
    .moveCore false sr right, .ofInteger signed dr sr,
    .binary .vdiv dr dl dr, .toInteger signed sr dr, .moveCore true sr .ip]

/-- A divisor of minus one negates: the quotient in `IP` becomes `0 - left`. -/
def negateOnMinusOne (left right : Register) : Sequence :=
  issueCore .al [.compare .cmn right .one] ++
    issueCore .eq [.arithmetic .rsb false .ip left .zero]

/-- A divisor of zero gives zero: the quotient in `IP` is cleared. -/
def zeroOnZero (right : Register) : Sequence :=
  issueCore .al [.compare .cmp right .zero] ++ issueCore .eq [.move .mov false .ip .zero]

/-- The division that uses `IP`, the flags and two double registers with single halves. -/
def divideByFloat (c : Condition) (signed : Bool) (result left right : Register)
    (dl dr : DRegister) : Sequence :=
  guarded (c = .al) (.unconditional .division c) <|
  guarded (result ≠ .ip ∧ left ≠ .ip ∧ right ≠ .ip) .divisionScratch <|
  withValue dl.lowHalf fun sl ↦ withValue dr.lowHalf fun sr ↦
    issue .al ((floatQuotient signed left right dl dr sl sr).map .float) ++
      (if signed then negateOnMinusOne left right else []) ++
      zeroOnZero right ++
      issueCore .al [.move .mov false result (.register .ip)]

/-- `result = left / right`, toward zero, with `x / 0 = 0`. -/
def divide (features : Features) (c : Condition) (signed : Bool)
    (result left right : Register) (dl dr : DRegister) : Sequence :=
  if features.integerDivision then issueCore c [.divide (!signed) result left right]
  else divideByFloat c signed result left right dl dr

end A32Assembler.Sequence
