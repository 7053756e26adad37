import A32Assembler.Proofs.Calculator.Parsing

/-!
# Printing and parsing

The text of an expression has parentheses around every operation, so it spells the expression
itself and no other: what is printed is parsed back. The text of a negative number starts with a
sign, which no number of the grammar has. Parsing never gives such a number, so a tree that was
parsed once can always be printed and parsed again.
-/

namespace A32Assembler.Calculator

namespace Expr

/-- No number of the expression is negative. -/
def NonNegative : Expr → Prop
  | number value => 0 ≤ value.toInt
  | binary left _ right => left.NonNegative ∧ right.NonNegative

/-- The numbers of an expression are looked at one by one. -/
instance decidableNonNegative : (e : Expr) → Decidable e.NonNegative
  | number value => inferInstanceAs (Decidable (0 ≤ value.toInt))
  | binary left _ right =>
    have := left.decidableNonNegative
    have := right.decidableNonNegative
    inferInstanceAs (Decidable (left.NonNegative ∧ right.NonNegative))

/-- The tokens of the text of an expression. -/
def tokens : Expr → List Token
  | number value => [.number value]
  | binary left op right =>
    .leftParen :: (left.tokens ++ .operator op :: right.tokens ++ [.rightParen])

/-- A number without a sign is printed by its digits. -/
theorem numberText_of_nonneg {value : Word} (h : 0 ≤ value.toInt) :
    numberText value = Nat.toDigits 10 value.toNat := by
  have clear : value.msb = false := by
    rw [BitVec.msb_eq_toInt]
    exact decide_eq_false (by omega)
  rw [numberText, clear, if_neg (by decide)]

/-- The tokens of an expression are a factor that spells it. -/
theorem derives_tokens (e : Expr) : Derives .factor e.tokens e := by
  induction e with
  | number value => exact .number value
  | binary left op right ihl ihr =>
    apply Derives.parens
    cases sign : op.bindsTight with
    | true => exact .term (.tight (.factor ihl) (bindsTight_eq_true.mp sign) ihr)
    | false => exact .loose (.term (.factor ihl)) (bindsTight_eq_false.mp sign) (.factor ihr)

end Expr

variable {cs : List Char} {ts : List Token} {e : Expr}

/-- The digits of a number that has no sign are cut off as that number. -/
theorem Cuts.numberText {value : Word} (h : 0 ≤ value.toInt)
    (ends : ∀ c ∈ cs.head?, c.isDigit = false) (rest : Cuts cs ts) :
    Cuts (Expr.numberText value ++ cs) (.number value :: ts) := by
  have read_back : digitsValue (Nat.toDigits 10 value.toNat) = value.toNat :=
    Nat.ofDigitChars_ten_toDigits
  have small : value.toNat ≤ 2147483647 := by
    rw [BitVec.toInt_eq_toNat_cond] at h
    split at h <;> omega
  have digits : ∀ d ∈ Nat.toDigits 10 value.toNat, d.isDigit = true :=
    fun d digit ↦ Nat.isDigit_of_mem_toDigits (by decide) (by decide) digit
  have cut := Cuts.number Nat.toDigits_ne_nil digits ends (by rwa [read_back]) rest
  rwa [read_back, BitVec.ofNat_toNat, BitVec.setWidth_eq, ← Expr.numberText_of_nonneg h] at cut

/-- The text of an expression is cut into its tokens, whatever follows that does not continue a
number. -/
theorem Cuts.text (h : e.NonNegative) (ends : ∀ c ∈ cs.head?, c.isDigit = false)
    (rest : Cuts cs ts) : Cuts (e.text ++ cs) (e.tokens ++ ts) := by
  induction e generalizing cs ts with
  | number value => exact .numberText h ends rest
  | binary left op right ihl ihr =>
    have closed : Cuts (right.text ++ ')' :: cs) (right.tokens ++ .rightParen :: ts) :=
      ihr h.2 (by simp) (.rightParen rest)
    have signed : Cuts (' ' :: op.symbol :: ' ' :: (right.text ++ ')' :: cs))
        (.operator op :: (right.tokens ++ .rightParen :: ts)) :=
      .blank rfl (.operator op (.blank rfl closed))
    have opened := Cuts.leftParen (ihl h.1 (by simp) signed)
    simpa [Expr.text, Expr.tokens] using opened

/-- The numbers of a text have no sign. -/
theorem Cuts.nonneg (h : Cuts cs ts) {value : Word} (mem : .number value ∈ ts) :
    0 ≤ value.toInt := by
  induction h with
  | nil => cases mem
  | blank _ _ ih => exact ih mem
  | operator | leftParen | rightParen =>
    next ih => exact ih (by simpa using mem)
  | number _ _ _ bound _ ih =>
    rcases List.mem_cons.mp mem with same | mem
    · cases same
      rw [BitVec.toInt_eq_toNat_cond, BitVec.toNat_ofNat]
      split <;> omega
    · exact ih mem

/-- A sentence without negative numbers spells a tree without them. -/
theorem Derives.nonNegative {n : Nonterminal} (h : Derives n ts e)
    (unsigned : ∀ value, .number value ∈ ts → 0 ≤ value.toInt) : e.NonNegative := by
  induction h with
  | number value => exact unsigned value List.mem_cons_self
  | parens _ ih => exact ih fun value mem ↦ unsigned value (by simp [mem])
  | factor _ ih => exact ih unsigned
  | term _ ih => exact ih unsigned
  | tight _ _ _ ihl ihr | loose _ _ _ ihl ihr =>
    exact ⟨ihl fun value mem ↦ unsigned value (by simp [mem]),
      ihr fun value mem ↦ unsigned value (by simp [mem])⟩

/-- What was parsed has no negative numbers. -/
theorem nonNegative_of_parse (h : parse cs = .ok e) : e.NonNegative := by
  obtain ⟨ended, derives⟩ := (derives_of_parse _ e _).1 h (.outermost Level.readFrom_empty)
  have cut : Cuts cs (lex cs).1 := lex_eq_iff_cuts.mp (Prod.ext rfl ended)
  exact derives.nonNegative fun _ mem ↦ cut.nonneg mem

/-- The text of an expression without negative numbers is parsed as the expression. -/
theorem parse_text (h : e.NonNegative) : parse e.text = .ok e := by
  have cut : Cuts e.text e.tokens := by simpa using Cuts.text h (by simp) .nil
  have read := e.derives_tokens.reads .empty [] []
  rw [List.append_nil] at read
  rw [parse, cut.lex_eq]
  exact read.trans ((parseOperator_nil ..).mpr ⟨rfl, rfl, rfl⟩)

/-- Printing and then parsing is the identity on every expression without negative numbers, and so
on every expression that was parsed. -/
theorem text_parses_back :
    (∀ e : Expr, e.NonNegative → parse e.text = .ok e) ∧
      ∀ (cs : List Char) (e : Expr), parse cs = .ok e → parse e.text = .ok e := by
  refine ⟨fun e h ↦ parse_text h, ?_⟩
  intro cs e parsed
  exact parse_text (nonNegative_of_parse parsed)

/-- A tree that leans to the right where the signs lean to the left, with the largest number. -/
def rightLeaning : Expr :=
  .binary (.number 8) .remainder (.binary (.number 2147483647) .subtract
    (.binary (.number 0) .divide (.number 3)))

/-- The text of this tree, and a shorter one, are parsed as the tree. -/
theorem right_leaning_parses_back : rightLeaning.NonNegative ∧
    parse rightLeaning.text = .ok rightLeaning ∧
    parse "8%(2147483647-0/3)".toList = .ok rightLeaning ∧
    parse "(8 % (2147483647 - (0 / 3)))".toList = .ok rightLeaning := by
  have formed : rightLeaning.NonNegative := by decide
  have parsed : parse "8%(2147483647-0/3)".toList = .ok rightLeaning := by
    have read : (parse "8%(2147483647-0/3)".toList).toOption = some rightLeaning := by
      decide +kernel
    cases found : parse "8%(2147483647-0/3)".toList with
    | ok e =>
      rw [found] at read
      exact congrArg Except.ok (Option.some.inj read)
    | error e =>
      rw [found] at read
      cases read
  exact ⟨formed, text_parses_back.1 _ formed, parsed, text_parses_back.2 _ _ parsed⟩

end A32Assembler.Calculator
