import A32Assembler.CodeBuffer
import A32Assembler.Encoding.Core

/-!
# Branches and their displacements

A branch is written before its target is known and patched once it is. A near branch is one word
with 24 bits of displacement. A far branch loads a 32-bit displacement into `IP` with a pair of wide
moves and adds it to the program counter.
-/

namespace A32Assembler

/-- The shape of an emitted branch. -/
inductive BranchKind
  | near
  | far
deriving DecidableEq

namespace BranchKind

/-- The name used in requests. -/
def name : BranchKind → String
  | near => "Near"
  | far => "Far"

/-- The kind with a given name. -/
def ofName? (s : String) : Option BranchKind := [near, far].find? (·.name = s)

/-- How far after the start of the branch the program counter stands when it is read. -/
def bias : BranchKind → Nat
  | near => 8
  | far => 16

end BranchKind

/-- The displacement that takes a branch at `position` to `target`. Positions are narrowed to 32
bits; a difference that leaves the signed range is an overflow. -/
def displacement (position : Nat) (kind : BranchKind) (target : Nat) : Except Misuse Word := do
  require (position + kind.bias < CodeBuffer.positionLimit) (.overflow .addition)
  let goal := BitVec.ofNat 32 target
  let origin := BitVec.ofNat 32 (position + kind.bias)
  require (BitVec.ssubOverflow goal origin = false) (.overflow .subtraction)
  return goal - origin

/-- The wide moves at `position` and after it, with a new 32-bit displacement. -/
def patchFar (b : CodeBuffer) (position : Nat) (offset : Word) : Except Misuse CodeBuffer := do
  let low ← b.load position
  let high ← b.load (position + 4)
  let b ← b.store position (Encoding.withWideImmediate low (offset.extractLsb' 0 16))
  b.store (position + 4) (Encoding.withWideImmediate high (offset.extractLsb' 16 16))

/-- The near branch at `position`, with a new displacement. -/
def patchNear (b : CodeBuffer) (position target : Nat) (offset : Word) :
    Except Misuse CodeBuffer := do
  require (Encoding.InBranchRange offset) (.unreachable position target)
  let w ← b.load position
  let field ← Encoding.branchField offset
  b.store position (Encoding.withBranchField w field)

/-- The branch at `position` turned toward `target`. -/
def patchBranch (b : CodeBuffer) (position : Nat) (kind : BranchKind) (target : Nat) :
    Except Misuse CodeBuffer := do
  let offset ← displacement position kind target
  match kind with
  | .near => patchNear b position target offset
  | .far => patchFar b position offset

end A32Assembler
