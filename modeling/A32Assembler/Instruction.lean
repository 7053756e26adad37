import A32Assembler.Instruction.Neon
import A32Assembler.Instruction.Vfp

/-!
# Instructions

An instruction of any of the three families, and an instruction together with the condition it is
issued under. The pair has a word; the instruction alone has none.
-/

namespace A32Assembler

/-- An instruction without its condition. -/
inductive Instruction
  | core (i : CoreInstruction)
  | float (i : FloatInstruction)
  | vector (i : VectorInstruction)

/-- A core instruction is an instruction. -/
instance : Coe CoreInstruction Instruction := ⟨.core⟩

/-- A floating-point instruction is an instruction. -/
instance : Coe FloatInstruction Instruction := ⟨.float⟩

/-- A vector instruction is an instruction. -/
instance : Coe VectorInstruction Instruction := ⟨.vector⟩

/-- The word of an instruction issued under a condition. -/
def Instruction.encode (c : Condition) : Instruction → Except Misuse Word
  | core i => i.encode c
  | float i => i.encode c
  | vector i => i.encode c

/-- An instruction and the condition it is issued under. -/
structure Predicated where
  condition : Condition
  instruction : Instruction

/-- The word of a predicated instruction. -/
def Predicated.encode (p : Predicated) : Except Misuse Word := p.instruction.encode p.condition

end A32Assembler
