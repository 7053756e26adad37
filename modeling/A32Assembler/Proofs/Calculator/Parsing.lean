import A32Assembler.Calculator.Parser
import A32Assembler.Proofs.Calculator.Grammar
import Mathlib.Logic.ExistsUnique

/-!
# What the parser accepts

The parser succeeds on the sentences of the grammar and on nothing else, with the tree that the
sentence spells. In one direction a derivation is read from the outside in: after a term there is a
last factor, and what it continues waits at the level. In the other direction the levels account for
every token read so far: the sum and the term that wait at a level have been derived from the tokens
before their signs.
-/

namespace A32Assembler.Calculator

/-- The signs that bind tight are those of a term. -/
theorem bindsTight_eq_true {op : Operator} :
    op.bindsTight = true ↔ op ∈ [.multiply, .divide, .remainder] := by
  cases op <;> decide

/-- The other signs are those of a sum. -/
theorem bindsTight_eq_false {op : Operator} :
    op.bindsTight = false ↔ op ∈ [.add, .subtract] := by
  cases op <;> decide

/-- A tight sign continues the term of a level. -/
theorem Level.extend_tight {op : Operator} (h : op.bindsTight = true) (l : Level) (f : Expr) :
    l.extend f op = ⟨l.sum, some ⟨finish l.term f, op⟩⟩ := if_pos h

/-- A loose sign ends the term of a level and continues its sum. -/
theorem Level.extend_loose {op : Operator} (h : op.bindsTight = false) (l : Level) (f : Expr) :
    l.extend f op = ⟨some ⟨l.close f, op⟩, none⟩ := if_neg (by simp [h])

section Steps

variable (ending : Option LexicalError) (level : Level) (outer : List Level) (f : Expr)
  (ts : List Token)

/-- A number is an operand. -/
theorem parseOperand_number (value : Word) :
    parseOperand ending level outer (.number value :: ts) =
      parseOperator ending level outer (.number value) ts := rfl

/-- A parenthesis opens a level. -/
theorem parseOperand_leftParen :
    parseOperand ending level outer (.leftParen :: ts) =
      parseOperand ending .empty (level :: outer) ts := rfl

/-- A sign asks for another operand. -/
theorem parseOperator_operator (op : Operator) :
    parseOperator ending level outer f (.operator op :: ts) =
      parseOperand ending (level.extend f op) outer ts := rfl

/-- A closing parenthesis makes a factor of the level. -/
theorem parseOperator_rightParen (next : Level) :
    parseOperator ending level (next :: outer) f (.rightParen :: ts) =
      parseOperator ending next outer (level.close f) ts := rfl

/-- The tokens may only end where every level has been closed and nothing was left uncut. -/
theorem parseOperator_nil {e : Expr} :
    parseOperator ending level outer f [] = .ok e ↔
      ending = none ∧ outer = [] ∧ level.close f = e := by
  cases ending <;> cases outer <;> simp [parseOperator]

end Steps

/-- What reading a sentence does: a factor is read as a whole; a term leaves its last factor with
what that continues, and a sum its last term in the same way. -/
def Reads (ts : List Token) (e : Expr) : Nonterminal → Prop
  | .factor => ∀ level outer rest,
      parseOperand none level outer (ts ++ rest) = parseOperator none level outer e rest
  | .term => ∃ waiting factor, finish waiting factor = e ∧ ∀ sum outer rest,
      parseOperand none ⟨sum, none⟩ outer (ts ++ rest) =
        parseOperator none ⟨sum, waiting⟩ outer factor rest
  | .sum => ∃ level factor, Level.close level factor = e ∧ ∀ outer rest,
      parseOperand none .empty outer (ts ++ rest) = parseOperator none level outer factor rest

/-- The parser reads every sentence. -/
theorem Derives.reads {n : Nonterminal} {ts : List Token} {e : Expr} (h : Derives n ts e) :
    Reads ts e n := by
  induction h with
  | number value =>
    intro level outer rest
    rw [List.singleton_append, parseOperand_number]
  | @parens ts e _ ih =>
    obtain ⟨inner, factor, rfl, run⟩ := ih
    intro level outer rest
    rw [List.cons_append, List.append_assoc, parseOperand_leftParen, run, List.singleton_append,
      parseOperator_rightParen]
  | factor _ ih =>
    refine ⟨none, _, rfl, ?_⟩
    intro sum outer rest
    exact ih ⟨sum, none⟩ outer rest
  | @tight ts us l r op _ sign _ ihl ihr =>
    obtain ⟨waiting, factor, rfl, run⟩ := ihl
    refine ⟨some ⟨finish waiting factor, op⟩, r, rfl, ?_⟩
    intro sum outer rest
    rw [List.append_assoc, run, List.cons_append, parseOperator_operator,
      Level.extend_tight (bindsTight_eq_true.mpr sign), ihr]
  | term _ ih =>
    obtain ⟨waiting, factor, rfl, run⟩ := ih
    exact ⟨⟨none, waiting⟩, factor, rfl, run none⟩
  | @loose ts us l r op _ sign _ ihl ihr =>
    obtain ⟨level, factor, rfl, run⟩ := ihl
    obtain ⟨waiting, last, rfl, run'⟩ := ihr
    refine ⟨⟨some ⟨level.close factor, op⟩, waiting⟩, last, rfl, ?_⟩
    intro outer rest
    rw [List.append_assoc, run, List.cons_append, parseOperator_operator,
      Level.extend_loose (bindsTight_eq_false.mpr sign), run']

/-- A waiting operation and the tokens it was read from: its left operand and its sign. -/
inductive WaitsOn (n : Nonterminal) (signs : List Operator) : Option Waiting → List Token → Prop
  | none : WaitsOn n signs none []
  | some {ts : List Token} {l : Expr} {op : Operator} : Derives n ts l → op ∈ signs →
      WaitsOn n signs (some ⟨l, op⟩) (ts ++ [.operator op])

/-- A level and the tokens it was read from. -/
inductive Level.ReadFrom : Level → List Token → Prop
  | intro {l : Level} {ts us : List Token} :
      WaitsOn .sum [.add, .subtract] l.sum ts →
      WaitsOn .term [.multiply, .divide, .remainder] l.term us → l.ReadFrom (ts ++ us)

/-- The levels from the current one outwards and all tokens read so far. -/
inductive ReadFrom : Level → List Level → List Token → Prop
  | outermost {l : Level} {ts : List Token} : l.ReadFrom ts → ReadFrom l [] ts
  | inside {l next : Level} {outer : List Level} {ts us : List Token} :
      ReadFrom next outer ts → l.ReadFrom us →
      ReadFrom l (next :: outer) (ts ++ .leftParen :: us)

/-- A waiting term and a factor make a term. -/
theorem WaitsOn.term {w : Option Waiting} {ts us : List Token} {f : Expr}
    (h : WaitsOn .term [.multiply, .divide, .remainder] w ts) (hf : Derives .factor us f) :
    Derives .term (ts ++ us) (finish w f) := by
  cases h with
  | none => exact .factor hf
  | some left sign =>
    rw [List.append_assoc]
    exact .tight left sign hf

/-- A waiting sum and a term make a sum. -/
theorem WaitsOn.sum {w : Option Waiting} {ts us : List Token} {t : Expr}
    (h : WaitsOn .sum [.add, .subtract] w ts) (ht : Derives .term us t) :
    Derives .sum (ts ++ us) (finish w t) := by
  cases h with
  | none => exact .term ht
  | some left sign =>
    rw [List.append_assoc]
    exact .loose left sign ht

/-- A level and a factor make a sum. -/
theorem Level.ReadFrom.close {l : Level} {ts us : List Token} {f : Expr} (h : l.ReadFrom ts)
    (hf : Derives .factor us f) : Derives .sum (ts ++ us) (l.close f) := by
  obtain ⟨sum, term⟩ := h
  rw [List.append_assoc]
  exact sum.sum (term.term hf)

/-- Nothing has been read at an empty level. -/
theorem Level.readFrom_empty : Level.empty.ReadFrom [] := .intro (l := .empty) .none .none

/-- A level and a factor with a sign make another level. -/
theorem Level.ReadFrom.extend {l : Level} {ts us : List Token} {f : Expr} (op : Operator)
    (h : l.ReadFrom ts) (hf : Derives .factor us f) :
    (l.extend f op).ReadFrom (ts ++ (us ++ [.operator op])) := by
  cases sign : op.bindsTight with
  | true =>
    rw [Level.extend_tight sign]
    obtain ⟨sum, term⟩ := h
    rw [List.append_assoc, ← List.append_assoc _ us]
    exact .intro sum (.some (term.term hf) (bindsTight_eq_true.mp sign))
  | false =>
    rw [Level.extend_loose sign, ← List.append_assoc]
    have sum := WaitsOn.some (h.close hf) (bindsTight_eq_false.mp sign)
    simpa using Level.ReadFrom.intro (l := ⟨some ⟨l.close f, op⟩, none⟩) sum .none

/-- A factor with a sign at the current level. -/
theorem ReadFrom.extend {l : Level} {outer : List Level} {ts us : List Token} {f : Expr}
    (op : Operator) (h : ReadFrom l outer ts) (hf : Derives .factor us f) :
    ReadFrom (l.extend f op) outer (ts ++ (us ++ [.operator op])) := by
  cases h with
  | outermost read => exact .outermost (read.extend op hf)
  | inside out read =>
    rw [List.append_assoc, List.cons_append]
    exact .inside out (read.extend op hf)

/-- Where an operand is due, or an operator after a factor, success means that all tokens together
are a sum. -/
theorem derives_of_parse (ending : Option LexicalError) (e : Expr) (ts : List Token) :
    (∀ {level outer read}, parseOperand ending level outer ts = .ok e → ReadFrom level outer read →
      ending = none ∧ Derives .sum (read ++ ts) e) ∧
    (∀ {level outer f read us}, parseOperator ending level outer f ts = .ok e →
      ReadFrom level outer read → Derives .factor us f →
      ending = none ∧ Derives .sum (read ++ (us ++ ts)) e) := by
  induction ts with
  | nil =>
    constructor
    · intro level outer read h _
      cases h
    · intro level outer f read us h before factor
      obtain ⟨ended, rfl, rfl⟩ := (parseOperator_nil ..).mp h
      cases before with
      | outermost before =>
        rw [List.append_nil]
        exact ⟨ended, before.close factor⟩
  | cons t ts ih =>
    obtain ⟨operand, operator⟩ := ih
    constructor
    · intro level outer read h before
      cases t with
      | number value =>
        rw [parseOperand_number] at h
        exact operator h before (.number value)
      | leftParen =>
        rw [parseOperand_leftParen] at h
        have result := operand h (.inside before Level.readFrom_empty)
        rwa [List.append_assoc] at result
      | operator op => cases h
      | rightParen => cases h
    · intro level outer f read us h before factor
      cases t with
      | operator op =>
        rw [parseOperator_operator] at h
        have result := operand h (before.extend op factor)
        rwa [List.append_assoc, List.append_assoc, List.singleton_append] at result
      | rightParen =>
        cases before with
        | outermost _ => cases h
        | inside out inner =>
          rw [parseOperator_rightParen] at h
          have result := operator h out (.parens (inner.close factor))
          simpa using result
      | number value => cases h
      | leftParen => cases h

/-- The parser succeeds with a tree exactly when the text spells it, and a text that spells a tree
spells no other. -/
theorem parse_eq_ok_iff_spells (cs : List Char) :
    (∀ e, parse cs = .ok e ↔ Spells cs e) ∧ ((∃ e, Spells cs e) → ∃! e, Spells cs e) := by
  have accepts (e : Expr) : parse cs = .ok e ↔ Spells cs e := by
    constructor
    · intro h
      obtain ⟨ended, derives⟩ :=
        (derives_of_parse _ e _).1 h (.outermost Level.readFrom_empty)
      exact ⟨(lex cs).1, lex_eq_iff_cuts.mp (Prod.ext rfl ended), derives⟩
    · rintro ⟨ts, cut, derives⟩
      obtain ⟨level, factor, closed, run⟩ := derives.reads
      rw [parse, cut.lex_eq]
      change parseOperand none .empty [] ts = _
      rw [← List.append_nil ts, run]
      exact (parseOperator_nil ..).mpr ⟨rfl, rfl, closed⟩
  refine ⟨accepts, ?_⟩
  rintro ⟨e, spells⟩
  refine ⟨e, spells, ?_⟩
  intro e' spells'
  have same := ((accepts e').mpr spells').symm.trans ((accepts e).mpr spells)
  exact Except.ok.inj same

end A32Assembler.Calculator
