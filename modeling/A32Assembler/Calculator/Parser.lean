import A32Assembler.Calculator.Token

/-!
# Parsing

A sum is a term or a sum, a sign and a term; a term is a factor or a term, a sign and a factor; a
factor is a number or a sum in parentheses. The parser reads the tokens once from left to right. At
every level of parentheses it remembers the operations that still wait for their right operand: at
most one of the sum, and at most one of the term inside it.
-/

namespace A32Assembler.Calculator

/-- Why a text is no expression. -/
inductive SyntaxError
  | lexical (e : LexicalError)
  /-- An operand was due and something else came. -/
  | unexpected (found : Option Token)
  /-- An operator or a closing parenthesis was due and something else came. -/
  | unclosed
  /-- The expression was complete and something followed. -/
  | trailing
deriving DecidableEq

/-- The wording of a syntax error. -/
def SyntaxError.message : SyntaxError → String
  | lexical e => e.message
  | unexpected found => "Unexpected token: " ++ nextText found
  | unclosed => "Expected closing parenthesis"
  | trailing => "Unexpected token at end of expression"

/-- An operation that waits for its right operand. -/
structure Waiting where
  left : Expr
  op : Operator
deriving DecidableEq

/-- The operation, if one waits, with its right operand. -/
def finish (w : Option Waiting) (right : Expr) : Expr :=
  match w with
  | some w => .binary w.left w.op right
  | none => right

/-- What waits at one level of parentheses. -/
structure Level where
  sum : Option Waiting
  term : Option Waiting
deriving DecidableEq

namespace Level

/-- Nothing waits. -/
def empty : Level := ⟨none, none⟩

/-- The level after a factor and a sign: a tight sign continues the term, a loose one ends it and
continues the sum. -/
def extend (l : Level) (factor : Expr) (op : Operator) : Level :=
  if op.bindsTight then { l with term := some ⟨finish l.term factor, op⟩ }
  else ⟨some ⟨finish l.sum (finish l.term factor), op⟩, none⟩

/-- The expression of a level that ends with a factor. -/
def close (l : Level) (factor : Expr) : Expr := finish l.sum (finish l.term factor)

end Level

/-- What is wrong where the tokens end although something was due. -/
def atEnd (ending : Option LexicalError) (due : SyntaxError) : SyntaxError :=
  match ending with
  | some e => .lexical e
  | none => due

/-- What is wrong with a token that cannot follow a complete operand. -/
def misplaced (outer : List Level) : SyntaxError :=
  if outer.isEmpty then .trailing else .unclosed

mutual

/-- Reads on where an operand is due, with the levels outside the current one. -/
def parseOperand (ending : Option LexicalError) (level : Level) (outer : List Level) :
    List Token → Except SyntaxError Expr
  | [] => .error (atEnd ending (.unexpected none))
  | .number value :: ts => parseOperator ending level outer (.number value) ts
  | .leftParen :: ts => parseOperand ending .empty (level :: outer) ts
  | t :: _ => .error (.unexpected (some t))

/-- Reads on after a factor, where an operator, a closing parenthesis or the end is due. -/
def parseOperator (ending : Option LexicalError) (level : Level) (outer : List Level)
    (factor : Expr) : List Token → Except SyntaxError Expr
  | [] =>
    match ending, outer with
    | none, [] => .ok (level.close factor)
    | _, _ => .error (atEnd ending .unclosed)
  | .operator op :: ts => parseOperand ending (level.extend factor op) outer ts
  | .rightParen :: ts =>
    match outer with
    | [] => .error .trailing
    | next :: outer => parseOperator ending next outer (level.close factor) ts
  | _ :: _ => .error (misplaced outer)

end

/-- The expression that a text spells. -/
def parse (cs : List Char) : Except SyntaxError Expr :=
  let (tokens, ending) := lex cs
  parseOperand ending .empty [] tokens

end A32Assembler.Calculator
