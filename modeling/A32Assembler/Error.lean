import A32Assembler.Condition
import A32Assembler.Float.Binary
import A32Assembler.Register
import A32Assembler.Shift
import A32Assembler.Transfer
import A32Assembler.Word.Hex

/-!
# Errors

There are two kinds. A *refusal* answers a reasonable request that has no encoding, or that comes
too early; whoever asked may try something else, and nothing has changed. A *misuse* is a call
outside its contract, after which the assembly is abandoned.

The program is the development build, with debug assertions and overflow checks on. A register
number that does not exist is caught by such an assertion, and arithmetic that leaves its range by
such a check; a build without them would go on with a truncated field or a number that has wrapped
around. Everything that is said of these two misuses holds of the development build only.
-/

namespace A32Assembler

/-- A request that cannot be met. -/
inductive Refusal
  /-- No rotated 8-bit value equals the constant. -/
  | immediate (value : Word)
  /-- The shift has no encoding for this constant amount. -/
  | shiftAmount (shift : Shift) (amount : Nat)
  /-- The constant, here in double precision, has no 8-bit floating-point form. -/
  | float (value : Doubleword)
  /-- The code still holds branches without a target. -/
  | unresolved (count : Nat)

/-- The wording of a refusal. -/
def Refusal.message : Refusal → String
  | immediate value =>
    "immediate " ++ hexNumber value.toNat ++ " is not an 8-bit value rotated by an even amount"
  | shiftAmount shift amount =>
    "shift amount " ++ toString amount ++ " is out of range for " ++ shift.name
  | float value =>
    "floating-point constant " ++ Double.text value ++ " has no 8-bit VFP immediate form"
  | unresolved count =>
    toString count ++ " branch(es) reference labels that were never bound"

/-- What cannot be issued under a condition other than `AL`. -/
inductive Unpredicable
  | breakpoint | clearExclusive | vector | duplicate | table | division
deriving DecidableEq

/-- How diagnostics call it. -/
def Unpredicable.text : Unpredicable → String
  | breakpoint => "bkpt"
  | clearExclusive => "clrex"
  | vector => "neon"
  | duplicate => "vdup"
  | table => "vtbl"
  | division => "integer division fallback"

/-- Arithmetic that left its range: a misuse because the overflow checks are on. -/
inductive Overflow
  | addition | subtraction | multiplication | shift
deriving DecidableEq

/-- A call outside its contract. -/
inductive Misuse
  -- Registers
  /-- A register number at or above the number of registers of its class: a debug assertion. -/
  | noRegister (count : Nat)
  /-- A double register without single-precision halves. -/
  | noHalves (d : DRegister)
  /-- A lane of a quadword register that is no single-precision register. -/
  | noLane (q : QRegister) (lane : Nat)
  /-- `AL` has no opposite. -/
  | noInverse
  | overflow (operation : Overflow)
  -- Operands and addresses
  | rotation (rotate : Nat)
  | imm8 (value : Nat)
  | wordOffset (magnitude : Word)
  | miscOffset (magnitude : Word)
  | miscShift
  | vfpIndexing
  | vfpRegisterOffset
  | vfpAlignment (magnitude : Word)
  | vfpOffset (magnitude : Word)
  -- Instructions
  | unconditional (what : Unpredicable) (condition : Condition)
  | emptyList
  | longDestinations
  | pairFirst (rd : Register)
  | pairSecond
  | exclusiveStatus
  | branchAlignment (offset : Word)
  | branchDistance (offset : Word)
  | pairIntoSingles (sm : SRegister)
  | pairFromSingles (sm : SRegister)
  | pairDestinations
  | scalarIndex (index : Nat)
  | vfpBlockMode (mode : BlockMode)
  | singlesEmpty (first last : SRegister)
  | doublesCount (count : Nat)
  | doublesEnd
  | multiplyLanes
  | duplicateLane (size : OperandSize) (index : Nat)
  | duplicateSize (size : OperandSize)
  | tableLength (length : Nat)
  | tableEnd
  -- Sequences
  | constantScratch
  | additionScratch
  | comparisonScratch
  | offsetScratch (offset : Word)
  | loadSize (size : OperandSize)
  | storeSize (size : OperandSize)
  | divisionScratch
  | reciprocalScratch
  | reciprocalOverlap
  | rootReciprocalScratch
  | rootReciprocalOverlap
  | rootTemporary
  | rootScratch
  | quotientOverlap
  | quotientScratch
  -- Code and labels
  | misaligned (position : Nat)
  | outside (position size : Nat)
  | foreignLabel (label : Nat)
  | alreadyBound (label position : Nat)
  | unreachable (position target : Nat)
  | abandoned (count : Nat)
  | noEntry (index length : Nat)

/-- The wording of an overflow. -/
def Overflow.message : Overflow → String
  | addition => "attempt to add with overflow"
  | subtraction => "attempt to subtract with overflow"
  | multiplication => "attempt to multiply with overflow"
  | shift => "attempt to shift left with overflow"

private def laneWord : OperandSize → String
  | .byte | .unsignedByte => "byte"
  | .halfword | .unsignedHalfword => "halfword"
  | _ => "word"

private def singleText (s : SRegister) : String := "S" ++ toString s.number.toNat

private def nextSingleText (s : SRegister) : String := "S" ++ toString (s.number.toNat + 1)

private def offsetText (offset : Word) : String := toString offset.toInt

/-- The wording of a misuse. -/
def Misuse.message : Misuse → String
  | noRegister count => "assertion failed: self.0 < " ++ toString count
  | noHalves d => "D" ++ toString d.number.toNat ++ " has no single-precision alias"
  | noLane q lane =>
    "Q" ++ toString q.number.toNat ++ " lane " ++ toString lane ++ " has no single-precision alias"
  | noInverse => "AL has no inverse condition"
  | overflow operation => operation.message
  | rotation rotate => "rotation " ++ toString rotate ++ " does not fit 4 bits"
  | imm8 value => "immediate " ++ hexNumber value ++ " does not fit 8 bits"
  | wordOffset m => "offset " ++ toString m.toNat ++ " does not fit the 12-bit load/store field"
  | miscOffset m => "offset " ++ toString m.toNat ++ " does not fit the 8-bit halfword/dual field"
  | miscShift => "halfword and dual transfers take an unshifted register offset"
  | vfpIndexing => "vldr/vstr only support plain offset addressing"
  | vfpRegisterOffset => "vldr/vstr do not take a register offset"
  | vfpAlignment m => "vldr/vstr offset " ++ toString m.toNat ++ " is not a multiple of 4"
  | vfpOffset m => "vldr/vstr offset " ++ toString m.toNat ++ " does not fit 8 bits after scaling"
  | unconditional what condition =>
    what.text ++ " cannot be predicated (current condition " ++ condition.name ++ ")"
  | emptyList => "ldm/stm need at least one register"
  | longDestinations => "long multiply needs two distinct destination registers"
  | pairFirst rd => "ldrd/strd need an even first register below LR, got " ++ rd.text
  | pairSecond => "ldrd/strd need consecutive registers"
  | exclusiveStatus => "strex status register must differ from Rt and Rn"
  | branchAlignment offset => "branch offset " ++ offsetText offset ++ " is not word aligned"
  | branchDistance offset =>
    "branch offset " ++ offsetText offset ++ " exceeds the 24-bit displacement"
  | pairIntoSingles sm =>
    "vmov to a register pair needs " ++ singleText sm ++ " and " ++ nextSingleText sm
  | pairFromSingles sm =>
    "vmov from a register pair needs " ++ singleText sm ++ " and " ++ nextSingleText sm
  | pairDestinations => "vmov to core registers needs two distinct registers"
  | scalarIndex index => "D register has two 32-bit lanes, got index " ++ toString index
  | vfpBlockMode mode => "vldm/vstm support IA, IA! and DB! only, got " ++ mode.name
  | singlesEmpty first last =>
    "S register range " ++ singleText first ++ "-" ++ singleText last ++ " is empty"
  | doublesCount count => "vldm/vstm move 1-16 D registers, got " ++ toString count
  | doublesEnd => "D register range runs past D31"
  | multiplyLanes => "vmul has no 64-bit integer form"
  | duplicateLane size index => laneWord size ++ " lane " ++ toString index ++ " out of range"
  | duplicateSize size => "vdup has no " ++ size.name ++ " lanes"
  | tableLength length => "vtbl takes 1-4 table registers, got " ++ toString length
  | tableEnd => "vtbl table runs past D31"
  | constantScratch => "load_dimmediate already uses IP for the high word"
  | additionScratch => "add_immediate needs IP as scratch"
  | comparisonScratch => "compare_immediate needs IP as scratch"
  | offsetScratch offset =>
    "offset " ++ offsetText offset ++ " needs IP as scratch but IP is the base"
  | loadSize size => "use load_sfrom_offset/load_dfrom_offset for " ++ size.name
  | storeSize size => "use store_sto_offset/store_dto_offset for " ++ size.name
  | divisionScratch => "integer division fallback uses IP as scratch"
  | reciprocalScratch => "vreciprocalqs uses QTMP as scratch"
  | reciprocalOverlap => "vreciprocalqs reads qm after writing qd"
  | rootReciprocalScratch => "vreciprocal_sqrtqs uses QTMP as scratch"
  | rootReciprocalOverlap => "vreciprocal_sqrtqs reads qm after writing qd"
  | rootTemporary => "vsqrtqs needs a distinct temporary"
  | rootScratch => "vsqrtqs uses QTMP as scratch"
  | quotientOverlap => "vdivqs overwrites qd before reading qn"
  | quotientScratch => "vdivqs uses QTMP as scratch"
  | misaligned position => "position " ++ hexNumber position ++ " is not word aligned"
  | outside position size =>
    "position " ++ hexNumber position ++ " is outside the " ++ toString size ++ " byte buffer"
  | foreignLabel label => "label " ++ toString label ++ " does not belong to this builder"
  | alreadyBound label position =>
    "label " ++ toString label ++ " is already bound to " ++ hexNumber position
  | unreachable position target =>
    "branch at " ++ hexNumber position ++ " cannot reach " ++ hexNumber target ++
      "; enable far branches"
  | abandoned count => "builder dropped with " ++ toString count ++ " unresolved branch(es)"
  | noEntry index length =>
    "index out of bounds: the len is " ++ toString length ++ " but the index is " ++ toString index

/-- Why a call did not succeed. -/
inductive Error
  | refusal (r : Refusal)
  | misuse (m : Misuse)

/-- A refusal is an error. -/
instance : Coe Refusal Error := ⟨.refusal⟩

/-- A misuse is an error. -/
instance : Coe Misuse Error := ⟨.misuse⟩

/-- The wording of an error. -/
def Error.message : Error → String
  | refusal r => r.message
  | misuse m => m.message

/-- `require p m` continues if `p` holds and is the misuse `m` otherwise. -/
def require (p : Prop) [Decidable p] (m : Misuse) : Except Misuse Unit :=
  if p then .ok () else .error m

/-- A requirement is met exactly when its condition holds. -/
theorem require_eq_ok {p : Prop} [Decidable p] {m : Misuse} : require p m = .ok () ↔ p := by
  unfold require
  split <;> simp_all

/-- A check that can only be misused, as one that can also be refused. -/
def liftMisuse {α : Type} : Except Misuse α → Except Error α
  | .ok a => .ok a
  | .error m => .error (.misuse m)

/-- A check that can only be refused, as one that can also be misused. -/
def liftRefusal {α : Type} : Except Refusal α → Except Error α
  | .ok a => .ok a
  | .error r => .error (.refusal r)

end A32Assembler
