import A32Assembler.Sequence.Constant

/-!
# Sequences for transfers at any offset

A transfer whose offset fits its instruction is that instruction. Any other offset is first added to
the base in `IP`, and the transfer goes through `IP` with offset zero.
-/

namespace A32Assembler.Sequence

/-- The address of a transfer, and the instructions that prepare it. -/
def reach (c : Condition) (base : Register) (offset : Word) (fits : Prop) [Decidable fits] :
    Sequence × Address :=
  if fits then ([], .ofOffset base offset)
  else
    (guarded (base ≠ .ip) (.offsetScratch offset) (addImmediate c false .ip base offset),
      .ofOffset .ip 0)

/-- The load of one size; signed sizes extend the sign, and a word pair fills `rd` and the register
after it. -/
def loadFrom (c : Condition) (size : OperandSize) (rd : Register) (a : Address) : Sequence :=
  match size with
  | .byte => issueCore c [.transferMisc .ldrsb rd a]
  | .unsignedByte => issueCore c [.transfer true true rd a]
  | .halfword => issueCore c [.transferMisc .ldrsh rd a]
  | .unsignedHalfword => issueCore c [.transferMisc .ldrh rd a]
  | .word | .unsignedWord => issueCore c [.transfer true false rd a]
  | .wordPair => withValue rd.next fun rd2 ↦ issueCore c [.transferPair true rd rd2 a]
  | .single | .double => [.error (.loadSize size)]

/-- The store of one size. -/
def storeTo (c : Condition) (size : OperandSize) (rd : Register) (a : Address) : Sequence :=
  match size with
  | .byte | .unsignedByte => issueCore c [.transfer false true rd a]
  | .halfword | .unsignedHalfword => issueCore c [.transferMisc .strh rd a]
  | .word | .unsignedWord => issueCore c [.transfer false false rd a]
  | .wordPair => withValue rd.next fun rd2 ↦ issueCore c [.transferPair false rd rd2 a]
  | .single | .double => [.error (.storeSize size)]

/-- A load of any size from `base + offset`. -/
def loadOffset (c : Condition) (size : OperandSize) (rd base : Register) (offset : Word) :
    Sequence :=
  let (setup, address) := reach c base offset (size.CanLoad offset)
  setup ++ loadFrom c size rd address

/-- A store of any size to `base + offset`. -/
def storeOffset (c : Condition) (size : OperandSize) (rd base : Register) (offset : Word) :
    Sequence :=
  let (setup, address) := reach c base offset (size.CanStore offset)
  setup ++ storeTo c size rd address

/-- The transfer size of a VFP register. -/
def floatSize : Precision → OperandSize
  | .single => .single
  | .double => .double

/-- A transfer of a VFP register at `base + offset`. -/
def floatOffset (c : Condition) (load : Bool) {p : Precision} (d : FloatRegister p)
    (base : Register) (offset : Word) : Sequence :=
  let (setup, address) := reach c base offset
    (if load then (floatSize p).CanLoad offset else (floatSize p).CanStore offset)
  setup ++ issue c [.float (.transfer load d address)]

/-- Eight more than a signed offset. -/
def offsetPlusEight (offset : Word) : Except Misuse Word :=
  if BitVec.saddOverflow offset 8 then .error (.overflow .addition) else .ok (offset + 8)

/-- Both halves of a quadword register from `base + offset`. -/
def loadQuad (c : Condition) (q : QRegister) (base : Register) (offset : Word) : Sequence :=
  (withValue q.lowDouble fun d ↦ issue c [.float (.transfer true d (.ofOffset base offset))]) ++
    withValue q.highDouble fun d ↦ withValue (offsetPlusEight offset) fun next ↦
      issue c [.float (.transfer true d (.ofOffset base next))]

end A32Assembler.Sequence
