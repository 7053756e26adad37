import A32Assembler.Proofs.Decoding.Condition
import A32Assembler.Proofs.Sequence.Words
import A32Assembler.Request
import Mathlib.Tactic.IntervalCases

/-!
# Conditions in sequences

The instructions of a sequence carry the condition that the sequence is expanded under. The
exception is division without hardware: it is expanded under `AL` only, and the instructions that
put its result right carry `EQ`. Sequences of vector instructions have words under `AL` only.
-/

namespace A32Assembler

namespace Sequence

variable {c : Condition} {s t : Sequence} {p : Predicated} {ws : List Word}

/-- Every instruction of the sequence carries a condition, and could carry any other. -/
def Carries (c : Condition) (s : Sequence) : Prop :=
  ∀ p, .ok p ∈ s → p.condition = c ∧ p.instruction.isUnconditional = false

namespace Carries

/-- Instructions under one condition carry it. -/
theorem issue {is : List Instruction} (free : ∀ i ∈ is, i.isUnconditional = false) :
    Carries c (issue c is) := by
  intro p mem
  obtain ⟨i, among, same⟩ := List.mem_map.mp mem
  cases same
  exact ⟨rfl, free i among⟩

/-- So do core instructions. -/
theorem issueCore {is : List CoreInstruction}
    (free : ∀ i ∈ is, (Instruction.core i).isUnconditional = false) :
    Carries c (issueCore c is) := by
  refine issue fun i mem ↦ ?_
  obtain ⟨j, among, rfl⟩ := List.mem_map.mp mem
  exact free j among

/-- One core instruction. -/
theorem core {i : CoreInstruction} (free : (Instruction.core i).isUnconditional = false) :
    Carries c (Sequence.issueCore c [i]) :=
  issueCore fun j mem ↦ by rwa [List.mem_singleton.mp mem]

/-- One VFP instruction. -/
theorem float {i : FloatInstruction} : Carries c (Sequence.issue c [.float i]) :=
  issue fun j mem ↦ by
    rw [List.mem_singleton.mp mem]
    rfl

/-- Sequences in a row. -/
theorem append (first : Carries c s) (second : Carries c t) : Carries c (s ++ t) := by
  intro p mem
  exact (List.mem_append.mp mem).elim (first p) (second p)

/-- No instructions. -/
theorem nil : Carries c [] := by
  intro p mem
  cases mem

/-- A misuse. -/
theorem error {m : Misuse} : Carries c [.error m] := by
  intro p mem
  simp at mem

/-- A sequence behind a check. -/
theorem guarded {q : Prop} [Decidable q] {m : Misuse} (carries : Carries c s) :
    Carries c (guarded q m s) := by
  unfold Sequence.guarded
  split
  · exact carries
  · exact error

/-- A sequence behind a checked value. -/
theorem withValue {α : Type} {x : Except Misuse α} {f : α → Sequence}
    (carries : ∀ v, Carries c (f v)) : Carries c (withValue x f) := by
  cases x with
  | ok v => exact carries v
  | error m => exact error

end Carries

/-- Loading a constant issues moves. -/
theorem constant_free (rd : Register) (value : Word) :
    ∀ i ∈ constant rd value, (Instruction.core i).isUnconditional = false := by
  intro i mem
  unfold constant at mem
  split at mem
  · rw [List.mem_singleton.mp mem]
    rfl
  · split at mem
    · rw [List.mem_singleton.mp mem]
      rfl
    · obtain rfl | mem := List.mem_cons.mp mem
      · rfl
      · split at mem
        · cases mem
        · rw [List.mem_singleton.mp mem]
          rfl

/-- Loading a constant. -/
theorem constant_carries {rd : Register} {value : Word} :
    Carries c (issueCore c (constant rd value)) := .issueCore (constant_free rd value)

/-- A constant in `IP`, and an instruction that takes it from there. -/
theorem constant_snoc_carries {value : Word} {i : CoreInstruction}
    (free : (Instruction.core i).isUnconditional = false) :
    Carries c (issueCore c (constant .ip value ++ [i])) := by
  refine .issueCore fun j mem ↦ ?_
  obtain mem | mem := List.mem_append.mp mem
  · exact constant_free _ _ j mem
  · rwa [List.mem_singleton.mp mem]

/-- Loading a single-precision constant. -/
theorem loadSingle_carries {sd : SRegister} {value : Word} : Carries c (loadSingle c sd value) := by
  unfold loadSingle
  split
  · exact .float
  · exact constant_carries.append .float

/-- Loading a double-precision constant. -/
theorem loadDouble_carries {dd : DRegister} {value : Doubleword} {scratch : Register} :
    Carries c (loadDouble c dd value scratch) := by
  unfold loadDouble
  split
  · exact .float
  · exact ((constant_carries.append constant_carries).append .float).guarded

/-- Adding a constant. -/
theorem addImmediate_carries {setFlags : Bool} {rd rn : Register} {value : Word} :
    Carries c (addImmediate c setFlags rd rn value) := by
  unfold addImmediate
  split
  · exact .core rfl
  · split
    · exact .core rfl
    · exact (constant_snoc_carries rfl).guarded

/-- Comparing with a constant. -/
theorem compareImmediate_carries {rn : Register} {value : Word} :
    Carries c (compareImmediate c rn value) := by
  unfold compareImmediate
  split
  · exact .core rfl
  · split
    · exact .core rfl
    · exact (constant_snoc_carries rfl).guarded

/-- The instructions that prepare an address. -/
theorem reach_carries {base : Register} {offset : Word} {fits : Prop} [Decidable fits] :
    Carries c (reach c base offset fits).1 := by
  unfold reach
  split
  · exact .nil
  · exact addImmediate_carries.guarded

/-- Loads of one size. -/
theorem loadFrom_carries {size : OperandSize} {rd : Register} {a : Address} :
    Carries c (loadFrom c size rd a) := by
  cases size with
  | wordPair => exact .withValue fun _ ↦ .core rfl
  | single | double => exact .error
  | _ => exact .core rfl

/-- Stores of one size. -/
theorem storeTo_carries {size : OperandSize} {rd : Register} {a : Address} :
    Carries c (storeTo c size rd a) := by
  cases size with
  | wordPair => exact .withValue fun _ ↦ .core rfl
  | single | double => exact .error
  | _ => exact .core rfl

/-- Loads of both halves of a quadword register. -/
theorem loadQuad_carries {q : QRegister} {base : Register} {offset : Word} :
    Carries c (loadQuad c q base offset) :=
  .append (.withValue fun _ ↦ .float) (.withValue fun _ ↦ .withValue fun _ ↦ .float)

/-- An instruction behind a check: the check is met. -/
theorem getElem?_guarded {q : Prop} [Decidable q] {m : Misuse} {k : Nat}
    (found : (guarded q m s)[k]? = some (.ok p)) : q ∧ s[k]? = some (.ok p) := by
  unfold guarded at found
  split at found
  · next met => exact ⟨met, found⟩
  · cases k <;> simp at found

/-- An instruction behind a checked value. -/
theorem getElem?_withValue {α : Type} {x : Except Misuse α} {f : α → Sequence} {k : Nat}
    (found : (withValue x f)[k]? = some (.ok p)) : ∃ v, (f v)[k]? = some (.ok p) := by
  cases x with
  | ok v => exact ⟨v, found⟩
  | error m => cases k <;> simp [withValue] at found

/-- The places of the instructions that put the result of a division right. -/
def divisionFixUps (signed : Bool) : List Nat := if signed then [8, 10] else [8]

/-- Division without hardware is expanded under `AL`, and its instructions carry `AL`, but for those
that put the result right. -/
theorem divideByFloat_condition {signed : Bool} {result left right : Register} {dl dr : DRegister}
    {k : Nat} (found : (divideByFloat c signed result left right dl dr)[k]? = some (.ok p)) :
    c = .al ∧ p.condition = (if k ∈ divisionFixUps signed then .eq else .al) ∧
      p.instruction.isUnconditional = false := by
  obtain ⟨always, found⟩ := getElem?_guarded found
  obtain ⟨-, found⟩ := getElem?_guarded found
  obtain ⟨sl, found⟩ := getElem?_withValue found
  obtain ⟨sr, found⟩ := getElem?_withValue found
  refine ⟨always, ?_⟩
  obtain ⟨inside, found⟩ := List.getElem?_eq_some_iff.mp found
  cases signed with
  | true =>
    have few : k < 12 := inside
    interval_cases k <;> cases found <;> exact ⟨rfl, rfl⟩
  | false =>
    have few : k < 10 := inside
    interval_cases k <;> cases found <;> exact ⟨rfl, rfl⟩

/-- What starts with a vector instruction has words under `AL` only. -/
theorem always_of_words_issueVector {i : VectorInstruction} {is : List VectorInstruction}
    (spelled : (issueVector c (i :: is)).words = .ok ws) : c = .al := by
  have only : (Instruction.vector i).isUnconditional := rfl
  obtain ⟨w, vs, encoded, -, -⟩ := words_issue_cons.mp spelled
  exact Instruction.always_of_encode only encoded

/-- The words of a sequence behind a check. -/
theorem words_guarded {q : Prop} [Decidable q] {m : Misuse} :
    (guarded q m s).words = .ok ws ↔ q ∧ s.words = .ok ws := by
  unfold guarded
  split
  · next met => simp [met]
  · next unmet => simp [unmet, words, Except.bind]

/-- The words of a sequence behind a checked value. -/
theorem words_withValue {α : Type} {x : Except Misuse α} {f : α → Sequence} :
    (withValue x f).words = .ok ws ↔ ∃ v, x = .ok v ∧ (f v).words = .ok ws := by
  cases x with
  | ok v => simp [withValue]
  | error m => simp [withValue, words, Except.bind]

/-- A reciprocal. -/
theorem always_of_words_reciprocal {qd qm : QRegister}
    (spelled : (reciprocal c qd qm).words = .ok ws) : c = .al :=
  always_of_words_issueVector (words_guarded.mp (words_guarded.mp spelled).2).2

/-- The reciprocal of a square root. -/
theorem always_of_words_rootReciprocal {qd qm : QRegister}
    (spelled : (rootReciprocal c qd qm).words = .ok ws) : c = .al :=
  always_of_words_issueVector (words_guarded.mp (words_guarded.mp spelled).2).2

/-- A square root. -/
theorem always_of_words_root {qd qm temp : QRegister}
    (spelled : (root c qd qm temp).words = .ok ws) : c = .al := by
  have spelled := (words_guarded.mp (words_guarded.mp spelled).2).2
  simp only [words_append] at spelled
  obtain ⟨-, -, ⟨-, -, ⟨us, -, first, -, -⟩, -, -⟩, -, -⟩ := spelled
  exact always_of_words_issueVector first

/-- A quotient. -/
theorem always_of_words_quotient {qd qn qm : QRegister}
    (spelled : (quotient c qd qn qm).words = .ok ws) : c = .al := by
  have spelled := (words_guarded.mp (words_guarded.mp spelled).2).2
  obtain ⟨us, -, first, -, -⟩ := words_append.mp spelled
  exact always_of_words_reciprocal first

/-- A division without hardware. -/
theorem always_of_words_divideByFloat {signed : Bool} {result left right : Register}
    {dl dr : DRegister}
    (spelled : (divideByFloat c signed result left right dl dr).words = .ok ws) : c = .al :=
  (words_guarded.mp spelled).1

end Sequence

namespace Request

variable {features : Features} {c : Condition} {p : Predicated} {ws : List Word}

/-- Whether a request expands to vector instructions. -/
def isUnconditional : Request → Bool
  | reciprocal .. | rootReciprocal .. | root .. | quotient .. => true
  | _ => false

/-- The places of instructions that carry `EQ`, whatever the condition in force. -/
def fixUps (features : Features) : Request → List Nat
  | divide signed .. => if features.integerDivision then [] else Sequence.divisionFixUps signed
  | _ => []

/-- The instructions of a request carry the condition that it is expanded under, but for the
places that put a division right. -/
theorem condition_of_sequence {r : Request} {k : Nat} (free : r.isUnconditional = false)
    (found : (r.sequence features c)[k]? = some (.ok p)) :
    p.condition = (if k ∈ r.fixUps features then .eq else c) ∧
      p.instruction.isUnconditional = false := by
  have carried {s : Sequence} (carries : Sequence.Carries c s) (found : s[k]? = some (.ok p)) :
      p.condition = c ∧ p.instruction.isUnconditional = false := by
    exact carries p (List.mem_of_getElem? found)
  cases r with
  | divide signed result left right dl dr =>
    rw [sequence, Sequence.divide] at found
    rw [fixUps]
    split at found
    · next hardware =>
      rw [if_pos hardware]
      exact carried (.core rfl) found
    · next none =>
      obtain ⟨rfl, condition, free⟩ := Sequence.divideByFloat_condition found
      rw [if_neg none]
      exact ⟨condition, free⟩
  | loadImmediate rd value => exact carried Sequence.constant_carries found
  | loadSingle sd value => exact carried Sequence.loadSingle_carries found
  | loadDouble dd value scratch => exact carried Sequence.loadDouble_carries found
  | addImmediate setFlags rd rn value => exact carried Sequence.addImmediate_carries found
  | compareImmediate rn value => exact carried Sequence.compareImmediate_carries found
  | loadOffset size rd base offset =>
    exact carried (Sequence.reach_carries.append Sequence.loadFrom_carries) found
  | storeOffset size rd base offset =>
    exact carried (Sequence.reach_carries.append Sequence.storeTo_carries) found
  | floatOffset load d base offset => exact carried (Sequence.reach_carries.append .float) found
  | loadQuad q base offset => exact carried Sequence.loadQuad_carries found
  | reciprocal | rootReciprocal | root | quotient => cases free

/-- Vector instructions, and division without hardware, have words under `AL` only. -/
theorem always_of_words {r : Request} (only : r.isUnconditional ∨ r.fixUps features ≠ [])
    (spelled : (r.sequence features c).words = .ok ws) : c = .al := by
  cases r with
  | divide signed result left right dl dr =>
    obtain only | fixes := only
    · cases only
    · rw [sequence, Sequence.divide] at spelled
      split at spelled
      · next hardware => exact absurd (if_pos hardware) fixes
      · exact Sequence.always_of_words_divideByFloat spelled
  | reciprocal qd qm => exact Sequence.always_of_words_reciprocal spelled
  | rootReciprocal qd qm => exact Sequence.always_of_words_rootReciprocal spelled
  | root qd qm temp => exact Sequence.always_of_words_root spelled
  | quotient qd qn qm => exact Sequence.always_of_words_quotient spelled
  | _ => simp [isUnconditional, fixUps] at only

end Request

end A32Assembler
