import A32Assembler.Sequence.Basic

/-!
# Refinement of vector estimates

Reciprocals and reciprocal square roots start from the estimate of the hardware, good to about eight
bits, and take two Newton-Raphson steps. Every step overwrites the scratch register `Q7`.
-/

namespace A32Assembler.Sequence

/-- Vector instructions under one condition. -/
def issueVector (c : Condition) (is : List VectorInstruction) : Sequence :=
  issue c (is.map .vector)

/-- One step toward `1 / qm`: `qd` becomes `qd * (2 - qm * qd)`. -/
def reciprocalStep (qd qm : QRegister) : List VectorInstruction :=
  [.quad .recipStep .scratch qm qd, .quad .mul qd qd .scratch]

/-- One step toward `1 / sqrt qm`: `qd` becomes `qd * (3 - qm * (qd * qd)) / 2`. -/
def rootReciprocalStep (qd qm : QRegister) : List VectorInstruction :=
  [.quad .mul .scratch qd qd, .quad .rsqrtStep .scratch qm .scratch, .quad .mul qd qd .scratch]

/-- `qd = 1 / qm`. -/
def reciprocal (c : Condition) (qd qm : QRegister) : Sequence :=
  guarded (qm ≠ .scratch ∧ qd ≠ .scratch) .reciprocalScratch <|
  guarded (qd ≠ qm) .reciprocalOverlap <|
    issueVector c
      (.unary .recipEstimate qd qm :: reciprocalStep qd qm ++ reciprocalStep qd qm)

/-- `qd = 1 / sqrt qm`. -/
def rootReciprocal (c : Condition) (qd qm : QRegister) : Sequence :=
  guarded (qm ≠ .scratch ∧ qd ≠ .scratch) .rootReciprocalScratch <|
  guarded (qd ≠ qm) .rootReciprocalOverlap <|
    issueVector c
      (.unary .rsqrtEstimate qd qm :: rootReciprocalStep qd qm ++ rootReciprocalStep qd qm)

/-- `qd = sqrt qm`, as the reciprocal of the reciprocal square root; `temp` is overwritten and `qm`
keeps its value unless it is `qd` or `temp`. -/
def root (c : Condition) (qd qm temp : QRegister) : Sequence :=
  guarded (temp ≠ qd ∧ temp ≠ .scratch) .rootTemporary <|
  guarded (qm ≠ .scratch) .rootScratch <|
    issueVector c [.move temp qm] ++ rootReciprocal c qd temp ++
      issueVector c [.move temp qd] ++ reciprocal c qd temp

/-- `qd = qn / qm`, as `qn` times the reciprocal of `qm`. -/
def quotient (c : Condition) (qd qn qm : QRegister) : Sequence :=
  guarded (qd ≠ qn) .quotientOverlap <|
  guarded (qn ≠ .scratch) .quotientScratch <|
    reciprocal c qd qm ++ issueVector c [.quad .mul qd qn qd]

end A32Assembler.Sequence
