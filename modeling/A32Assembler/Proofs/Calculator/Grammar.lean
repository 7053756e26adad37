import A32Assembler.Calculator.Token

/-!
# The language of expressions

A text is cut into the longest possible tokens with white space anywhere between them, and the
tokens are a sum: a term, or a sum, a loose sign and a term. A term is a factor, or a term, a tight
sign and a factor. A factor is a number or a sum in parentheses. A derivation says which tree the
tokens spell; parentheses leave no trace in it.
-/

namespace A32Assembler.Calculator

/-- A text and the tokens it is cut into. A number is a whole run of digits and stays within the
signed range. -/
inductive Cuts : List Char → List Token → Prop
  | nil : Cuts [] []
  | blank {c : Char} {cs : List Char} {ts : List Token} :
      Text.isBlank c = true → Cuts cs ts → Cuts (c :: cs) ts
  | operator (op : Operator) {cs : List Char} {ts : List Token} :
      Cuts cs ts → Cuts (op.symbol :: cs) (.operator op :: ts)
  | leftParen {cs : List Char} {ts : List Token} : Cuts cs ts → Cuts ('(' :: cs) (.leftParen :: ts)
  | rightParen {cs : List Char} {ts : List Token} :
      Cuts cs ts → Cuts (')' :: cs) (.rightParen :: ts)
  | number {ds cs : List Char} {ts : List Token} :
      ds ≠ [] → (∀ d ∈ ds, d.isDigit = true) → (∀ c ∈ cs.head?, c.isDigit = false) →
      digitsValue ds ≤ 2147483647 → Cuts cs ts →
      Cuts (ds ++ cs) (.number (BitVec.ofNat 32 (digitsValue ds)) :: ts)

/-- The nonterminals of the grammar. -/
inductive Nonterminal
  | sum | term | factor

/-- A nonterminal, a sentence of it, and the tree that the sentence spells. -/
inductive Derives : Nonterminal → List Token → Expr → Prop
  | number (value : Word) : Derives .factor [.number value] (.number value)
  | parens {ts : List Token} {e : Expr} :
      Derives .sum ts e → Derives .factor (.leftParen :: (ts ++ [.rightParen])) e
  | factor {ts : List Token} {e : Expr} : Derives .factor ts e → Derives .term ts e
  | tight {ts us : List Token} {l r : Expr} {op : Operator} :
      Derives .term ts l → op ∈ [.multiply, .divide, .remainder] → Derives .factor us r →
      Derives .term (ts ++ .operator op :: us) (.binary l op r)
  | term {ts : List Token} {e : Expr} : Derives .term ts e → Derives .sum ts e
  | loose {ts us : List Token} {l r : Expr} {op : Operator} :
      Derives .sum ts l → op ∈ [.add, .subtract] → Derives .term us r →
      Derives .sum (ts ++ .operator op :: us) (.binary l op r)

/-- A text and a tree that it spells. -/
def Spells (cs : List Char) (e : Expr) : Prop := ∃ ts, Cuts cs ts ∧ Derives .sum ts e

/-- A digit is no white space. -/
theorem isBlank_of_isDigit {c : Char} (h : c.isDigit = true) : Text.isBlank c = false := by
  have low : 48 ≤ c.toNat := by simp [Char.isDigit, UInt32.le_iff_toNat_le] at h; exact h.1
  have high : c.toNat ≤ 57 := by simp [Char.isDigit, UInt32.le_iff_toNat_le] at h; exact h.2
  simp only [Text.isBlank, Text.blankRanges, List.any_cons, List.any_nil, Bool.or_eq_false_iff,
    Bool.and_eq_false_iff, decide_eq_false_iff_not, and_true]
  and_intros <;> omega

/-- White space before a token changes nothing. -/
theorem next_cons_blank {c : Char} {cs : List Char} (h : Text.isBlank c = true) :
    Token.next (c :: cs) = Token.next cs := by
  simp only [Token.next, List.dropWhile_cons_of_pos h]

/-- A character that is a token is the next token. -/
theorem next_cons_symbol {c : Char} {cs : List Char} {t : Token} (blank : Text.isBlank c = false)
    (digit : c.isDigit = false) (h : Token.ofChar? c = some t) :
    Token.next (c :: cs) = .ok (some (t, cs)) := by
  have start : (c :: cs).dropWhile Text.isBlank = c :: cs :=
    List.dropWhile_cons_of_neg (by simp [blank])
  simp [Token.next, start, digit, h]

private theorem span_digits {ds cs : List Char} (digits : ∀ d ∈ ds, d.isDigit = true)
    (ends : ∀ c ∈ cs.head?, c.isDigit = false) :
    (ds ++ cs).takeWhile Char.isDigit = ds ∧ (ds ++ cs).dropWhile Char.isDigit = cs := by
  rw [List.takeWhile_append_of_pos digits, List.dropWhile_append_of_pos digits]
  cases cs with
  | nil => simp
  | cons c cs =>
    have stop : ¬ c.isDigit = true := by simp [ends c rfl]
    simp [List.takeWhile_cons_of_neg stop, List.dropWhile_cons_of_neg stop]

/-- A whole run of digits is the next token, unless it is too large. -/
theorem next_digits {ds cs : List Char} (some_digit : ds ≠ [])
    (digits : ∀ d ∈ ds, d.isDigit = true) (ends : ∀ c ∈ cs.head?, c.isDigit = false)
    (bound : digitsValue ds ≤ maxNumber) :
    Token.next (ds ++ cs) = .ok (some (.number (BitVec.ofNat 32 (digitsValue ds)), cs)) := by
  cases ds with
  | nil => exact absurd rfl some_digit
  | cons d ds =>
    have first : d.isDigit = true := digits d List.mem_cons_self
    have start : (d :: ds ++ cs).dropWhile Text.isBlank = d :: (ds ++ cs) :=
      List.dropWhile_cons_of_neg (by simp [isBlank_of_isDigit first])
    obtain ⟨taken, left⟩ :=
      span_digits (fun c hc ↦ digits c (List.mem_cons_of_mem d hc)) ends
    simp only [Token.next, start, first, if_true, taken, left, Token.ofDigits, bound]
    rfl

/-- A text is cut at its next token and then further on. -/
theorem lex_eq (cs : List Char) :
    lex cs = match Token.next cs with
      | .ok none => ([], none)
      | .ok (some (t, rest)) => (t :: (lex rest).1, (lex rest).2)
      | .error e => ([], some e) := by
  rw [lex]
  split
  · next found => simp only [found]
  · next found => simp only [found]
  · next found => simp only [found]

/-- A text with a next token is cut there. -/
theorem lex_of_next {cs rest : List Char} {t : Token} (h : Token.next cs = .ok (some (t, rest))) :
    lex cs = (t :: (lex rest).1, (lex rest).2) := by
  rw [lex_eq, h]

/-- White space in front does not change how a text is cut. -/
theorem lex_cons_blank {c : Char} {cs : List Char} (h : Text.isBlank c = true) :
    lex (c :: cs) = lex cs := by
  rw [lex_eq, next_cons_blank h, ← lex_eq]

/-- A text that is cut into tokens is cut into them without an error. -/
theorem Cuts.lex_eq {cs : List Char} {ts : List Token} (h : Cuts cs ts) : lex cs = (ts, none) := by
  induction h with
  | nil => rw [lex]; rfl
  | blank space _ ih => rw [lex_cons_blank space, ih]
  | operator op _ ih =>
    rw [lex_of_next (next_cons_symbol (t := .operator op) _ _ _), ih] <;> cases op <;> rfl
  | leftParen _ ih => rw [lex_of_next (next_cons_symbol rfl rfl rfl), ih]
  | rightParen _ ih => rw [lex_of_next (next_cons_symbol rfl rfl rfl), ih]
  | number some_digit digits ends bound _ ih =>
    rw [lex_of_next (next_digits some_digit digits ends bound), ih]

/-- A text has only one cut. -/
theorem Cuts.unique {cs : List Char} {ts us : List Token} (h : Cuts cs ts) (h' : Cuts cs us) :
    ts = us :=
  congrArg Prod.fst (h.lex_eq.symm.trans h'.lex_eq)

/-- White space in front of a cut. -/
theorem Cuts.of_dropWhile {cs : List Char} {ts : List Token}
    (h : Cuts (cs.dropWhile Text.isBlank) ts) : Cuts cs ts := by
  induction cs with
  | nil => exact h
  | cons c cs ih =>
    by_cases space : Text.isBlank c = true
    · rw [List.dropWhile_cons_of_pos space] at h
      exact .blank space (ih h)
    · rwa [List.dropWhile_cons_of_neg space] at h

/-- A character that is a token, in front of a cut. -/
theorem Cuts.cons_symbol {c : Char} {t : Token} (symbol : Token.ofChar? c = some t)
    {cs : List Char} {ts : List Token} (h : Cuts cs ts) : Cuts (c :: cs) (t :: ts) := by
  unfold Token.ofChar? at symbol
  split at symbol <;> cases symbol
  · exact .operator .add h
  · exact .operator .subtract h
  · exact .operator .multiply h
  · exact .operator .divide h
  · exact .operator .remainder h
  · exact .leftParen h
  · exact .rightParen h

/-- A text without a next token is white space. -/
theorem next_eq_none {cs : List Char} :
    Token.next cs = .ok none ↔ cs.dropWhile Text.isBlank = [] := by
  unfold Token.next
  split
  · next found => simp [found]
  · next c rest found =>
    rw [found]
    split
    · cases Token.ofDigits (c :: rest.takeWhile Char.isDigit) with
      | ok t => simp [bind, Except.bind, pure, Except.pure]
      | error e => simp [bind, Except.bind]
    · split
      · simp
      · simp

/-- The next token of a text in front of a cut of what follows it. -/
theorem Cuts.cons_next {cs rest : List Char} {t : Token} {ts : List Token}
    (h : Token.next cs = .ok (some (t, rest))) (tail : Cuts rest ts) : Cuts cs (t :: ts) := by
  apply Cuts.of_dropWhile
  unfold Token.next at h
  split at h
  · cases h
  next c cs found =>
  rw [found]
  split at h
  · next digit =>
    have whole : c :: cs = (c :: cs.takeWhile Char.isDigit) ++ cs.dropWhile Char.isDigit := by
      rw [List.cons_append, List.takeWhile_append_dropWhile]
    by_cases bound : digitsValue (c :: cs.takeWhile Char.isDigit) ≤ maxNumber
    · simp only [Token.ofDigits, bound, if_true] at h
      cases h
      rw [whole]
      apply Cuts.number (List.cons_ne_nil _ _) _ _ bound tail
      · intro d hd
        rcases List.mem_cons.mp hd with rfl | hd
        · exact digit
        · exact List.all_eq_true.mp List.all_takeWhile d hd
      · intro d hd
        have stop := List.head?_dropWhile_not Char.isDigit cs
        rw [Option.mem_def.mp hd] at stop
        exact stop
    · simp only [Token.ofDigits, bound, if_false] at h
      cases h
  · split at h
    · next symbol =>
      cases h
      exact tail.cons_symbol symbol
    · cases h

/-- The lexer finds the cut of a text exactly when the text has one. -/
theorem lex_eq_iff_cuts {cs : List Char} {ts : List Token} : lex cs = (ts, none) ↔ Cuts cs ts := by
  refine ⟨fun h ↦ ?_, Cuts.lex_eq⟩
  fun_induction lex cs generalizing ts with
  | case1 cs ended =>
    cases h
    apply Cuts.of_dropWhile
    rw [next_eq_none.mp ended]
    exact .nil
  | case2 cs t rest found _ us e tail ih =>
    cases h
    exact .cons_next found (ih tail)
  | case3 => cases h

end A32Assembler.Calculator
