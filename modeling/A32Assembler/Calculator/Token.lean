import A32Assembler.Calculator.Expr
import A32Assembler.Text.Blank

/-!
# Tokens

A text is cut into numbers, operators and parentheses, each as long as possible, with any white
space between them. The cut stops at the first character or number that is no token.
-/

namespace A32Assembler.Calculator

/-- A token of an expression. -/
inductive Token
  | number (value : Word)
  | operator (op : Operator)
  | leftParen
  | rightParen
deriving DecidableEq

/-- The name of a token in diagnostics. -/
def Token.text : Token → String
  | number value => "Number(" ++ String.ofList (Expr.numberText value) ++ ")"
  | operator op => "Operator(" ++ op.name ++ ")"
  | leftParen => "LeftParen"
  | rightParen => "RightParen"

/-- The name in diagnostics of what comes next: a token, or the end of the text. -/
def nextText : Option Token → String
  | some t => t.text
  | none => "End"

/-- Why a text cannot be cut further. -/
inductive LexicalError
  | character (c : Char)
  /-- The digits of a number beyond the signed range. -/
  | number (digits : List Char)
deriving DecidableEq

/-- The wording of a lexical error. -/
def LexicalError.message : LexicalError → String
  | character c => "Unexpected character: " ++ String.singleton c
  | number digits => "Invalid number: " ++ String.ofList digits

/-- The token that a single character is. -/
def Token.ofChar? : Char → Option Token
  | '+' => some (.operator .add)
  | '-' => some (.operator .subtract)
  | '*' => some (.operator .multiply)
  | '/' => some (.operator .divide)
  | '%' => some (.operator .remainder)
  | '(' => some .leftParen
  | ')' => some .rightParen
  | _ => none

/-- The value of a run of decimal digits. -/
def digitsValue (digits : List Char) : Nat :=
  digits.foldl (fun n c ↦ 10 * n + (c.toNat - '0'.toNat)) 0

/-- The largest number that can be written. -/
def maxNumber : Nat := 0x7fffffff

/-- The number that a run of digits stands for. -/
def Token.ofDigits (digits : List Char) : Except LexicalError Token :=
  let n := digitsValue digits
  if n ≤ maxNumber then .ok (.number (BitVec.ofNat 32 n)) else .error (.number digits)

/-- The first token of a text and what follows it; nothing at the end of the text. -/
def Token.next (cs : List Char) : Except LexicalError (Option (Token × List Char)) :=
  match cs.dropWhile Text.isBlank with
  | [] => .ok none
  | c :: rest =>
    if c.isDigit then do
      let t ← Token.ofDigits (c :: rest.takeWhile Char.isDigit)
      return some (t, rest.dropWhile Char.isDigit)
    else
      match Token.ofChar? c with
      | some t => .ok (some (t, rest))
      | none => .error (.character c)

/-- What follows a token is shorter than the text. -/
theorem Token.length_next {cs rest : List Char} {t : Token}
    (h : Token.next cs = .ok (some (t, rest))) : rest.length < cs.length := by
  have shrink := (List.dropWhile_sublist (l := cs) Text.isBlank).length_le
  unfold Token.next at h
  split at h
  · cases h
  · next c tail found =>
    have tail_lt : tail.length < cs.length := by
      rw [found, List.length_cons] at shrink
      omega
    split at h
    · cases digits : Token.ofDigits (c :: tail.takeWhile Char.isDigit) with
      | error e => simp [digits, bind, Except.bind] at h
      | ok t' =>
        simp only [digits, bind, Except.bind, pure, Except.pure, Except.ok.injEq,
          Option.some.injEq, Prod.mk.injEq] at h
        rw [← h.2]
        exact Nat.lt_of_le_of_lt (List.dropWhile_sublist _).length_le tail_lt
    · split at h
      · simp only [Except.ok.injEq, Option.some.injEq, Prod.mk.injEq] at h
        rw [← h.2]
        exact tail_lt
      · cases h

/-- The tokens of a text up to its end or up to the first error. -/
def lex (cs : List Char) : List Token × Option LexicalError :=
  match h : Token.next cs with
  | .ok none => ([], none)
  | .ok (some (t, rest)) =>
    have := Token.length_next h
    let (ts, e) := lex rest
    (t :: ts, e)
  | .error e => ([], some e)
termination_by cs.length

end A32Assembler.Calculator
