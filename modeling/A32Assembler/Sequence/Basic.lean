import A32Assembler.Instruction

/-!
# Instruction sequences

A sequence is what one request expands to when a single instruction does not do. It is a plan: each
place holds the next instruction with its condition, or the misuse that is found on arriving there.
A sequence is written out from left to right, and the first thing that goes wrong ends it.
-/

namespace A32Assembler

/-- Instructions to issue one after another. -/
abbrev Sequence := List (Except Misuse Predicated)

namespace Sequence

/-- Instructions that all carry one condition. -/
def issue (c : Condition) (is : List Instruction) : Sequence := is.map fun i ↦ .ok ⟨c, i⟩

/-- A sequence that ends at once with a misuse unless `p` holds. -/
def guarded (p : Prop) [Decidable p] (m : Misuse) (s : Sequence) : Sequence :=
  if p then s else [.error m]

/-- A sequence that depends on a checked value. -/
def withValue {α : Type} (x : Except Misuse α) (s : α → Sequence) : Sequence :=
  match x with
  | .ok a => s a
  | .error m => [.error m]

/-- The words of a sequence. -/
def words (s : Sequence) : Except Misuse (List Word) :=
  s.mapM fun place ↦ place.bind Predicated.encode

end Sequence

end A32Assembler
