import A32Assembler.Assembler
import A32Assembler.Calculator.Expr

/-!
# Compiling expressions

The code of an expression leaves its value in a given register. The left operand is computed in the
register of the result, the right operand in a fresh temporary; temporaries are taken and released
like a stack, so those in use are always the first of their list. The finished function saves the
temporaries, computes the value in `R0` and returns.
-/

namespace A32Assembler.Calculator

/-- The registers that hold right operands, in the order in which they are taken. -/
def temporaries : List Register := (List.range 7).map fun i ↦ .ofNat (4 + i)

/-- The registers that the code saves: the temporaries and `R11`, as a register list. -/
def savedList : Halfword := 0x0ff0

/-- Code for a part of an expression. -/
structure Emission where
  calls : List Call
  /-- The number of temporaries in use where the code ends. -/
  inUse : Nat
  /-- The code ends because all temporaries were in use. -/
  exhausted : Bool

namespace Emission

/-- The code of `e` followed by code that depends on the temporaries then in use, unless `e` is
exhausted. -/
def andThen (e : Emission) (next : Nat → Emission) : Emission :=
  if e.exhausted then e
  else
    let f := next e.inUse
    { f with calls := e.calls ++ f.calls }

/-- Code that takes no temporary. -/
def run (calls : List Call) (inUse : Nat) : Emission := ⟨calls, inUse, false⟩

/-- The next temporary is taken for the code that follows. -/
def take (inUse : Nat) (next : Register → Nat → Emission) : Emission :=
  match temporaries[inUse]? with
  | some r => next r (inUse + 1)
  | none => ⟨[], inUse, true⟩

/-- The temporary taken last is released. -/
def release (inUse : Nat) : Emission := run [] (inUse - 1)

end Emission

private def coreCall (i : CoreInstruction) : Call := .issue (.core i)

-- The division may use `D0` and `D1`.
private def divideCall (result left right : Register) : Call :=
  .expand (.divide true result left right ⟨0⟩ ⟨1⟩)

/-- The code that combines the value in `result` with the value in `right`. A remainder is what the
quotient, taken times the divisor, leaves of the dividend. -/
def combine (op : Operator) (result right : Register) (inUse : Nat) : Emission :=
  match op with
  | .add => .run [coreCall (.arithmetic .add false result result (.register right))] inUse
  | .subtract => .run [coreCall (.arithmetic .sub false result result (.register right))] inUse
  | .multiply => .run [coreCall (.multiply false result result right)] inUse
  | .divide => .run [divideCall result result right] inUse
  | .remainder =>
    .take inUse fun quotient inUse ↦
      (Emission.run [divideCall quotient result right,
        coreCall (.multiplyAccumulate true result quotient right result)] inUse).andThen .release

/-- The code that leaves the value of an expression in `result`. -/
def emitExpr (result : Register) : Expr → Nat → Emission
  | .number value, inUse => .run [.expand (.loadImmediate result value)] inUse
  | .binary left op right, inUse =>
    (emitExpr result left inUse).andThen fun inUse ↦
      .take inUse fun r inUse ↦
        ((emitExpr r right inUse).andThen (combine op result r)).andThen .release

/-- A compiler and the code it has written so far. -/
structure Compiler where
  assembler : Assembler
  inUse : Nat

namespace Compiler

/-- A compiler that has written nothing. -/
def start (features : Features) : Compiler := ⟨.start (.near features), 0⟩

/-- The code of a function that returns the value of an expression. When the temporaries run out,
the code breaks off where that happens and those in use stay in use; the flag tells. -/
def compile (c : Compiler) (e : Expr) : Except Error (Bool × Compiler) := do
  let body := emitExpr .r0 e c.inUse
  let epilogue := if body.exhausted then [] else [coreCall (.popList savedList), coreCall .ret]
  let a ← c.assembler.applyAll (coreCall (.pushList savedList) :: body.calls ++ epilogue)
  return (!body.exhausted, ⟨a, body.inUse⟩)

end Compiler

/-- What is reported when the temporaries run out. -/
def exhaustedMessage : String := "Out of temporary registers"

end A32Assembler.Calculator
