import A32Assembler.Sequence.Division
import A32Assembler.Sequence.Offset
import A32Assembler.Sequence.Refinement

/-!
# Requests

What can be asked of the assembler beyond single instructions. A request expands to a sequence that
depends on the condition in force and on the features of the processor.
-/

namespace A32Assembler

/-- A request that expands to a sequence. -/
inductive Request
  /-- `rd` becomes a constant. -/
  | loadImmediate (rd : Register) (value : Word)
  /-- `sd` becomes the single-precision number with a given pattern. -/
  | loadSingle (sd : SRegister) (value : Word)
  /-- `dd` becomes the double-precision number with a given pattern. -/
  | loadDouble (dd : DRegister) (value : Doubleword) (scratch : Register)
  /-- `rd` becomes `rn + value`. -/
  | addImmediate (setFlags : Bool) (rd rn : Register) (value : Word)
  /-- The flags become those of comparing `rn` with a constant. -/
  | compareImmediate (rn : Register) (value : Word)
  /-- A load from `base + offset`. -/
  | loadOffset (size : OperandSize) (rd base : Register) (offset : Word)
  /-- A store to `base + offset`. -/
  | storeOffset (size : OperandSize) (rd base : Register) (offset : Word)
  /-- A load or store of a VFP register at `base + offset`. -/
  | floatOffset (load : Bool) {p : Precision} (d : FloatRegister p) (base : Register)
    (offset : Word)
  /-- Both halves of a quadword register from `base + offset`. -/
  | loadQuad (q : QRegister) (base : Register) (offset : Word)
  /-- `result = left / right`. -/
  | divide (signed : Bool) (result left right : Register) (dl dr : DRegister)
  /-- `qd = 1 / qm`. -/
  | reciprocal (qd qm : QRegister)
  /-- `qd = 1 / sqrt qm`. -/
  | rootReciprocal (qd qm : QRegister)
  /-- `qd = sqrt qm`. -/
  | root (qd qm temp : QRegister)
  /-- `qd = qn / qm`. -/
  | quotient (qd qn qm : QRegister)

/-- The sequence that a request expands to. -/
def Request.sequence (features : Features) (c : Condition) : Request → Sequence
  | loadImmediate rd value => Sequence.loadImmediate c rd value
  | loadSingle sd value => Sequence.loadSingle c sd value
  | loadDouble dd value scratch => Sequence.loadDouble c dd value scratch
  | addImmediate setFlags rd rn value => Sequence.addImmediate c setFlags rd rn value
  | compareImmediate rn value => Sequence.compareImmediate c rn value
  | loadOffset size rd base offset => Sequence.loadOffset c size rd base offset
  | storeOffset size rd base offset => Sequence.storeOffset c size rd base offset
  | floatOffset load d base offset => Sequence.floatOffset c load d base offset
  | loadQuad q base offset => Sequence.loadQuad c q base offset
  | divide signed result left right dl dr =>
    Sequence.divide features c signed result left right dl dr
  | reciprocal qd qm => Sequence.reciprocal c qd qm
  | rootReciprocal qd qm => Sequence.rootReciprocal c qd qm
  | root qd qm temp => Sequence.root c qd qm temp
  | quotient qd qn qm => Sequence.quotient c qd qn qm

end A32Assembler
