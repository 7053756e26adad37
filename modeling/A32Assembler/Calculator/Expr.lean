import A32Assembler.Word

/-!
# Expressions

Integer expressions over 32-bit signed numbers, their value and their fully parenthesised text.
-/

namespace A32Assembler.Calculator

/-- An operation of the calculator. -/
inductive Operator
  | add | subtract | multiply | divide | remainder
deriving DecidableEq

namespace Operator

/-- The sign of an operation. -/
def symbol : Operator → Char
  | add => '+' | subtract => '-' | multiply => '*' | divide => '/' | remainder => '%'

/-- The name of an operation in diagnostics. -/
def name : Operator → String
  | add => "Add" | subtract => "Subtract" | multiply => "Multiply" | divide => "Divide"
  | remainder => "Remainder"

/-- Multiplication, division and remainder bind tighter than addition and subtraction. -/
def bindsTight : Operator → Bool
  | add | subtract => false
  | multiply | divide | remainder => true

/-- The result of an operation. Everything wraps; a quotient is cut toward zero, division by zero
gives zero, and the remainder by zero is the dividend. -/
def eval : Operator → Word → Word → Word
  | add, l, r => l + r
  | subtract, l, r => l - r
  | multiply, l, r => l * r
  | divide, l, r => l.sdiv r
  | remainder, l, r => l.srem r

end Operator

/-- An expression. -/
inductive Expr
  | number (value : Word)
  | binary (left : Expr) (op : Operator) (right : Expr)
deriving DecidableEq

namespace Expr

/-- The value of an expression. -/
def eval : Expr → Word
  | number value => value
  | binary left op right => op.eval left.eval right.eval

/-- A number in decimal with its sign. -/
def numberText (value : Word) : List Char :=
  if value.msb then '-' :: Nat.toDigits 10 (-value).toNat else Nat.toDigits 10 value.toNat

/-- The text of an expression, with parentheses around every operation. -/
def text : Expr → List Char
  | number value => numberText value
  | binary left op right => '(' :: left.text ++ ' ' :: op.symbol :: ' ' :: right.text ++ [')']

end Expr

end A32Assembler.Calculator
