import A32Assembler.Sequence.Basic

/-!
# Sequences for constants

Loading constants, and arithmetic with constants that an instruction may have no room for. What does
not fit goes through `IP`.
-/

namespace A32Assembler.Sequence

/-- The shortest instructions that leave `value` in `rd`: one `mov` or `mvn` if the constant or its
complement is a rotated 8-bit value, else `movw`, and `movt` if the upper half is not zero. -/
def constant (rd : Register) (value : Word) : List CoreInstruction :=
  match Operand.ofValue? value with
  | some operand => [.move .mov false rd operand]
  | none =>
    match Operand.ofValue? (~~~value) with
    | some operand => [.move .mvn false rd operand]
    | none =>
      let high := value.extractLsb' 16 16
      .moveWide false rd (value.extractLsb' 0 16) ::
        if high = 0 then [] else [.moveWide true rd high]

/-- Core instructions under one condition. -/
def issueCore (c : Condition) (is : List CoreInstruction) : Sequence := issue c (is.map .core)

/-- `rd` becomes `value`. -/
def loadImmediate (c : Condition) (rd : Register) (value : Word) : Sequence :=
  issueCore c (constant rd value)

/-- `sd` becomes the number with pattern `value`, by way of `IP` unless it has an 8-bit form. -/
def loadSingle (c : Condition) (sd : SRegister) (value : Word) : Sequence :=
  match Single.immediate? value with
  | some imm8 => issue c [.float (.moveImmediate sd imm8)]
  | none => issueCore c (constant .ip value) ++ issue c [.float (.moveCore false sd .ip)]

/-- `dd` becomes the number with pattern `value`. Unless it has an 8-bit form, its low word goes
through `scratch` and its high word through `IP`. -/
def loadDouble (c : Condition) (dd : DRegister) (value : Doubleword) (scratch : Register) :
    Sequence :=
  match Double.immediate? value with
  | some imm8 => issue c [.float (.moveImmediate dd imm8)]
  | none =>
    guarded (scratch ≠ .ip) .constantScratch <|
      issueCore c (constant scratch (value.extractLsb' 0 32)) ++
        issueCore c (constant .ip (value.extractLsb' 32 32)) ++
        issue c [.float (.movePair false dd scratch .ip)]

/-- `rd` becomes `rn + value`. A constant that fits neither `add` nor, negated, `sub` goes through
`IP`. -/
def addImmediate (c : Condition) (setFlags : Bool) (rd rn : Register) (value : Word) : Sequence :=
  match Operand.ofValue? value with
  | some operand => issueCore c [.arithmetic .add setFlags rd rn operand]
  | none =>
    match Operand.ofValue? (-value) with
    | some operand => issueCore c [.arithmetic .sub setFlags rd rn operand]
    | none =>
      guarded (rn ≠ .ip) .additionScratch <|
        issueCore c (constant .ip value ++ [.arithmetic .add setFlags rd rn (.register .ip)])

/-- The flags become those of comparing `rn` with `value`. -/
def compareImmediate (c : Condition) (rn : Register) (value : Word) : Sequence :=
  match Operand.ofValue? value with
  | some operand => issueCore c [.compare .cmp rn operand]
  | none =>
    match Operand.ofValue? (-value) with
    | some operand => issueCore c [.compare .cmn rn operand]
    | none =>
      guarded (rn ≠ .ip) .comparisonScratch <|
        issueCore c (constant .ip value ++ [.compare .cmp rn (.register .ip)])

end A32Assembler.Sequence
