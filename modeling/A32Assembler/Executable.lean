import A32Assembler.Assembler

/-!
# Executable memory

Finished code copied into memory from which it can run. Where this memory lies is up to an
allocator, which is a parameter: it answers a size in bytes with an address or fails.
-/

namespace A32Assembler

/-- Why there is no executable code. -/
inductive ExecutableError (ε : Type)
  /-- The allocator failed. -/
  | allocation (e : ε)
  /-- The memory does not start at a whole word. -/
  | misaligned (address : Nat)
  /-- The code is not finished. -/
  | build (r : Refusal)

/-- The wording of the failure, given that of the allocator's. -/
def ExecutableError.message {ε : Type} (text : ε → String) : ExecutableError ε → String
  | allocation e => "failed to allocate JIT memory: " ++ text e
  | misaligned address =>
    "executable region at " ++ hexNumber address ++ " is not 4-byte aligned"
  | build r => r.message

/-- Code in executable memory. -/
structure Executable where
  /-- The address of the first instruction. -/
  entry : Nat
  bytes : List Byte

/-- Code copied to memory from an allocator, which is asked for one word at least. -/
def Executable.ofCode {ε : Type} (allocate : Nat → Except ε Nat) (code : List Byte) :
    Except (ExecutableError ε) Executable :=
  match allocate (max code.length 4) with
  | .error e => .error (.allocation e)
  | .ok entry => if entry % 4 = 0 then .ok ⟨entry, code⟩ else .error (.misaligned entry)

/-- The finished code as a function. -/
def Assembler.function {ε : Type} (a : Assembler) (allocate : Nat → Except ε Nat) :
    Except (ExecutableError ε) Executable :=
  match a.code with
  | .error r => .error (.build r)
  | .ok code => Executable.ofCode allocate code

end A32Assembler
