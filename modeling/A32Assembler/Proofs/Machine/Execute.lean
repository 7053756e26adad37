import A32Assembler.Instruction
import A32Assembler.Proofs.Machine.Arithmetic
import A32Assembler.Proofs.Machine.FloatUnit
import A32Assembler.Proofs.Machine.Memory

/-!
# Execution of instructions

The state after one instruction. There is none if the architecture leaves the instruction undefined
or unpredictable, if it accesses memory that cannot be accessed, or if it is of a kind that this
machine does not have: long multiplications, single transfers, exclusive access, breakpoints,
vectors, and scalar floating-point instructions beyond those that divide integers. There is no other
instruction set to change to: a branch to a register goes to the address that the register holds.
-/

namespace A32Assembler

namespace Machine.State

/-- A data-processing instruction without its destination: the outcome, and the state with the flags
of the outcome if they are to be set. -/
def process (s : State) (op : Opcode) (setFlags : Bool) (rn : Register) (operand : Operand) :
    Outcome × State :=
  let o := compute op s.flags (s.read rn) (operand.evaluate s.read s.flags.c)
  (o, if setFlags then { s with flags := o.flags } else s)

/-- The end of a data-processing instruction with a destination; setting the flags while writing
`PC` is left to exception returns. -/
def settle (setFlags : Bool) (rd : Register) (r : Outcome × State) : Option State :=
  if setFlags ∧ rd = .pc then none else some (r.2.put rd r.1.value)

/-- A result of an instruction that must not name `PC` among its registers. -/
def unlessPc (s : State) (rs : List Register) : Option State := if .pc ∈ rs then none else some s

/-- The result and the state with the flags `N` and `Z` of it if they are to be set. -/
def withSign (s : State) (setFlags : Bool) (x : Word) : State :=
  if setFlags then { s with flags := { s.flags with n := x.msb, z := x = 0 } } else s

/-- A branch, with the address of the next instruction in a row left in `LR` if it links. -/
def jump (s : State) (link : Bool) (target : Word) : State :=
  (if link then s.write .lr (s.core .pc + 4) else s).write .pc target

variable {s : State} {link : Bool} {target : Word} {q : Register}

/-- A branch changes the program counter and, with link, `LR`. -/
theorem core_jump :
    (s.jump link target).core q =
      if q = .pc then target else if link = true ∧ q = .lr then s.core .pc + 4 else s.core q := by
  cases link <;> simp [jump]

/-- A branch keeps the flags. -/
@[simp] theorem flags_jump : (s.jump link target).flags = s.flags := by
  cases link <;> rfl

/-- A branch keeps everything else. -/
theorem keeps_jump : s.Keeps (s.jump link target) (if link then [.lr] else []) [] := by
  cases link with
  | false => exact ⟨fun q other _ ↦ by simp [core_jump, other], fun _ _ ↦ rfl, rfl⟩
  | true =>
    refine ⟨fun q other outside ↦ ?_, fun _ _ ↦ rfl, rfl⟩
    have other_lr : q ≠ .lr := by simpa using outside
    simp [core_jump, other, other_lr]

end Machine.State

namespace Machine

/-- The registers of a list in ascending order. -/
def listed (list : Halfword) : List Register :=
  ((List.range 16).filter list.getLsbD).map .ofNat

/-- Where a block of `count` words starts, and what becomes of the base register. -/
def blockStart (mode : BlockMode) (base : Word) (count : Nat) : Word × Word :=
  let size : Word := BitVec.ofNat 32 (4 * count)
  match mode.up, mode.before with
  | true, false => (base, base + size)
  | true, true => (base + 4, base + size)
  | false, true => (base - size, base - size)
  | false, false => (base - size + 4, base - size)

/-- A block transfer. The block is word-aligned; a base that is written back is not in the list. -/
def transferBlock (s : State) (load : Bool) (mode : BlockMode) (base : Register)
    (list : Halfword) : Option State := do
  let rs := listed list
  let (start, base') := blockStart mode (s.core base) rs.length
  if base = .pc ∨ start % 4 ≠ 0 ∨ (mode.writeBack ∧ base ∈ rs) then none
  else
    let t := if mode.writeBack then s.write base base' else s
    if load then
      let xs ← s.memory.readBlock start rs.length
      return (rs.zip xs).foldl (fun t (r, x) ↦ t.write r x) t.advance
    else
      let memory ← s.memory.writeBlock start (rs.map s.read)
      return { t with memory }.advance

end Machine

open Machine

/-- The state after a core instruction whose condition holds. -/
def CoreInstruction.execute (s : State) : CoreInstruction → Option State
  | arithmetic op setFlags rd rn operand =>
    State.settle setFlags rd (s.process op.opcode setFlags rn operand)
  | compare op rn operand => some (s.process op.opcode true rn operand).2.advance
  | move op setFlags rd operand =>
    State.settle setFlags rd (s.process op.opcode setFlags .r0 operand)
  | moveWide top rd imm =>
    let x : Word := if top then imm ++ (s.core rd).extractLsb' 0 16 else imm.setWidth 32
    (s.put rd x).unlessPc [rd]
  | countLeadingZeros rd rm => (s.put rd (s.core rm).clz).unlessPc [rd, rm]
  | nop => some s.advance
  | multiply setFlags rd rn rm =>
    let x := s.core rn * s.core rm
    ((s.withSign setFlags x).put rd x).unlessPc [rd, rn, rm]
  | multiplyAccumulate subtract rd rn rm ra =>
    let x := s.core rn * s.core rm
    (s.put rd (if subtract then s.core ra - x else s.core ra + x)).unlessPc [rd, rn, rm, ra]
  | divide unsigned rd rn rm =>
    let x := if unsigned then s.core rn / s.core rm else (s.core rn).sdiv (s.core rm)
    (s.put rd x).unlessPc [rd, rn, rm]
  | transferBlock load mode base list => Machine.transferBlock s load mode base list
  | branch link offset => some (s.jump link (s.read .pc + offset))
  | branchExchange link rm =>
    if link ∧ rm = .pc then none else some (s.jump link (s.read rm))
  | _ => none

/-- The state after a floating-point instruction whose condition holds. -/
def FloatInstruction.execute (u : FloatUnit) (s : State) : FloatInstruction → Option State
  | moveCore true sn rt => (s.put rt (s.single sn)).unlessPc [rt]
  | moveCore false sn rt => (s.writeSingle sn (s.core rt)).advance.unlessPc [rt]
  | binary .vdiv (p := .double) d n m =>
    some (s.writeDouble d (u.divide (s.double n) (s.double m))).advance
  | ofInteger signed (p := .double) d sm =>
    some (s.writeDouble d (u.ofInteger signed (s.single sm))).advance
  | toInteger signed sd (p := .double) m =>
    some (s.writeSingle sd (u.toInteger signed (s.double m))).advance
  | _ => none

/-- The state after an instruction whose condition holds. -/
def Instruction.execute (u : FloatUnit) (s : State) : Instruction → Option State
  | core i => i.execute s
  | float i => i.execute u s
  | vector _ => none

/-- The state after a predicated instruction: nothing happens unless its condition holds. -/
def Predicated.execute (u : FloatUnit) (s : State) (p : Predicated) : Option State :=
  if p.condition.holds s.flags then p.instruction.execute u s else some s.advance

end A32Assembler
