import A32Assembler.Calculator.Compiler
import A32Assembler.Calculator.Parser

/-!
# The calculator's console

What the calculator writes: for every expression its tree, on request its code, and its value or
what is wrong with it. Expressions come as arguments or, if there are none, line by line.
-/

namespace A32Assembler.Calculator

/-- The argument that asks for the code. -/
def showCodeOption : String := "--show-code"

/-- One numbered line of a code listing; numbers below ten are moved in by a space. -/
def codeLine (number : Nat) (w : Word) : String :=
  let digits := toString number
  let margin := if number < 10 then " " else ""
  "   [" ++ margin ++ digits ++ "]: " ++ w.hex ++ "\n"

/-- The lines of a code listing, numbered from `first` on. -/
def codeLines (first : Nat) : List Word → String
  | [] => ""
  | w :: ws => codeLine first w ++ codeLines (first + 1) ws

/-- A code listing with its heading. -/
def codeText (l : Listing) : String :=
  "Generated Machine Code:\n   Instructions: " ++ toString l.length ++ ", Total bytes: " ++
    toString l.size ++ "\n" ++ codeLines 1 l.words

/-- What is written while an expression is worked out, and its value or what is wrong with it. -/
def evaluate (showCode : Bool) (features : Features) (expression : List Char) :
    String × Except String Word :=
  match parse expression with
  | .error e => ("", .error e.message)
  | .ok tree =>
    let head := "AST: " ++ String.ofList tree.text ++ "\n"
    match (Compiler.start features).compile tree with
    | .error e => (head, .error e.message)
    | .ok (false, _) => (head, .error exhaustedMessage)
    | .ok (true, c) =>
      let code := if showCode then codeText c.assembler.listing else ""
      (head ++ code ++ "Not on an ARM host, interpreting the AST instead\n", .ok tree.eval)

/-- The decimal text of a value. -/
def valueText (value : Word) : String := String.ofList (Expr.numberText value)

/-- All that is written for an expression given as an argument. -/
def argumentText (showCode : Bool) (features : Features) (expression : String) : String :=
  match evaluate showCode features expression.toList with
  | (head, .ok value) => head ++ expression ++ " = " ++ valueText value ++ "\n"
  | (head, .error message) => head ++ expression ++ ": error: " ++ message ++ "\n"

/-- What an interactive session starts with. -/
def banner : String :=
  "JIT Calculator (ARM)\nSupports: +, -, *, /, %, parentheses. Type 'quit' to exit.\n\n"

/-- All that is written for a line of an interactive session; nothing if the line ends it. -/
def lineText? (showCode : Bool) (features : Features) (line : List Char) : Option String :=
  let input := Text.trim line
  if input.map Char.toLower = "quit".toList then none
  else if input.isEmpty then some ""
  else
    match evaluate showCode features input with
    | (head, .ok value) => some (head ++ "Result: " ++ valueText value ++ "\n\n")
    | (head, .error message) => some (head ++ "Error: " ++ message ++ "\n\n")

/-- All that is written for the lines of an interactive session. -/
def sessionText (showCode : Bool) (features : Features) : List (List Char) → String
  | [] => ""
  | line :: lines =>
    match lineText? showCode features line with
    | none => ""
    | some text => text ++ sessionText showCode features lines

/-- All that the calculator writes, given its arguments and its input. -/
def transcript (features : Features) (arguments : List String) (input : String) : String :=
  let showCode := arguments.contains showCodeOption
  let expressions := arguments.filter (· ≠ showCodeOption)
  if expressions.isEmpty then
    banner ++ sessionText showCode features (Text.lines input.toList)
  else String.join (expressions.map (argumentText showCode features))

end A32Assembler.Calculator
