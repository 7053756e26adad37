import A32Assembler.Word

/-!
# Registers

Core registers `R0`-`R15`, the VFP registers in their single and double view, and the quadword
registers of Advanced SIMD. A register is held by the number it was written with. Numbers that name
no register are kept, so that the encoder can refuse them where they are used.
-/

namespace A32Assembler

/-- A core register. -/
structure Register where
  number : Byte
deriving DecidableEq

/-- What a procedure call does to a core register under the AAPCS. -/
inductive Preservation
  /-- Arguments, results and scratch: a callee may overwrite it. -/
  | callerSaved
  /-- A callee restores it before it returns. -/
  | calleeSaved
  /-- Stack pointer, link register, program counter. -/
  | special
deriving DecidableEq

/-- The usual name of a preservation class. -/
def Preservation.text : Preservation → String
  | .callerSaved => "caller-saved"
  | .calleeSaved => "callee-saved"
  | .special => "special"

namespace Register

/-- The register with number `n`. -/
def ofNat (n : Nat) : Register := ⟨BitVec.ofNat 8 n⟩

/-- First argument and result. -/
def r0 : Register := ofNat 0

/-- Scratch between a call and its target; the sequences of this library overwrite it. -/
def ip : Register := ofNat 12

/-- Stack pointer. -/
def sp : Register := ofNat 13

/-- Link register. -/
def lr : Register := ofNat 14

/-- Program counter. -/
def pc : Register := ofNat 15

/-- `R0`-`R3` and `IP` belong to the callee, `R4`-`R11` to the caller, all others have a role. -/
def preservation (r : Register) : Preservation :=
  if r.number ≤ 3 then .callerSaved
  else if r.number ≤ 11 then .calleeSaved
  else if r.number = 12 then .callerSaved
  else .special

/-- A register as diagnostics name it. -/
def text (r : Register) : String := "Register(" ++ toString r.number.toNat ++ ")"

end Register

/-- Width of a VFP register. -/
inductive Precision
  | single
  | double
deriving DecidableEq

/-- The `sz` bit. -/
def Precision.isDouble : Precision → Bool
  | .single => false
  | .double => true

/-- A VFP register of one precision: `S0`-`S31` or `D0`-`D31`. -/
structure FloatRegister (p : Precision) where
  number : Byte
deriving DecidableEq

/-- A single-precision register. -/
abbrev SRegister := FloatRegister .single

/-- A double-precision register. -/
abbrev DRegister := FloatRegister .double

/-- The double register that holds `s` in one of its halves. -/
def FloatRegister.container (s : SRegister) : DRegister := ⟨s.number / 2⟩

/-- A quadword register `Q0`-`Q15`. -/
structure QRegister where
  number : Byte
deriving DecidableEq

/-- The quadword register that the refinement sequences overwrite. -/
def QRegister.scratch : QRegister := ⟨7⟩

end A32Assembler
