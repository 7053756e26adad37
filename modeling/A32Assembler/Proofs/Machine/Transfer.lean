import A32Assembler.Proofs.Float.Expansion
import A32Assembler.Proofs.Machine.Address
import A32Assembler.Proofs.Machine.Execute
import A32Assembler.Sequence.Offset

/-!
# Execution of transfers

The machine with data transfers: beside what works on registers and blocks, it has the transfers of
single values of every size, and the moves of constants and of two core registers into the VFP unit.
A byte or a halfword that is loaded fills its register, with zeros or with its sign. Only pairs and
VFP registers have to lie at whole words.
-/

namespace A32Assembler

namespace Memory

/-- The halfword at an address. -/
def readHalf (m : Memory) (a : Word) : Option Halfword := do
  let b0 ← m a
  let b1 ← m (a + 1)
  return b1 ++ b0

/-- Another byte at an address. -/
def writeByte (m : Memory) (a : Word) (x : Byte) : Option Memory :=
  (m a).map fun _ ↦ Function.update m a (some x)

/-- Another halfword at an address. -/
def writeHalf (m : Memory) (a : Word) (x : Halfword) : Option Memory :=
  (m.readHalf a).map fun _ ↦
    Function.update (Function.update m a (some (x.extractLsb' 0 8))) (a + 1)
      (some (x.extractLsb' 8 8))

end Memory

namespace OperandSize

/-- The core registers of a transfer: a pair fills the register after the first, too. -/
def registers (rd : Register) : OperandSize → List Register
  | wordPair => [rd, ⟨rd.number + 1⟩]
  | _ => [rd]

/-- What a load gives: a word for each register, or for each half of a double. -/
def load (m : Memory) (a : Word) : OperandSize → Option (List Word)
  | byte => (m a).map fun x ↦ [x.signExtend 32]
  | unsignedByte => (m a).map fun x ↦ [x.setWidth 32]
  | halfword => (m.readHalf a).map fun x ↦ [x.signExtend 32]
  | unsignedHalfword => (m.readHalf a).map fun x ↦ [x.setWidth 32]
  | word | unsignedWord => m.readBlock a 1
  | single => if a % 4 = 0 then m.readBlock a 1 else none
  | wordPair | double => if a % 4 = 0 then m.readBlock a 2 else none

/-- The memory after a store of words, or of the low bits of one. -/
def store (m : Memory) (a : Word) (xs : List Word) : OperandSize → Option Memory
  | byte | unsignedByte => xs.head?.bind fun x ↦ m.writeByte a (x.setWidth 8)
  | halfword | unsignedHalfword => xs.head?.bind fun x ↦ m.writeHalf a (x.setWidth 16)
  | word | unsignedWord => m.writeBlock a xs
  | single | wordPair | double => if a % 4 = 0 then m.writeBlock a xs else none

end OperandSize

/-- The size of a transfer of a halfword or of a value that is sign-extended. -/
def MiscTransferOp.size : MiscTransferOp → OperandSize
  | ldrh => .unsignedHalfword | strh => .halfword | ldrsb => .byte | ldrsh => .halfword

/-- The register that a distance is taken from. -/
def Displacement.register? : Displacement → Option Register
  | immediate _ => none
  | register rm _ _ => some rm

/-- A transfer of registers at an address is predictable: it does not transfer `PC`, and neither is
`PC` the distance nor a base that is updated, nor is such a base among the registers. -/
def Address.Predictable (a : Address) (rs : List Register) : Prop :=
  .pc ∉ rs ∧ a.displacement.register? ≠ some .pc ∧
    (a.mode.indexing = .offset ∨ a.base ≠ .pc ∧ a.base ∉ rs)

/-- Whether a transfer is predictable can be computed from its registers. -/
instance (a : Address) (rs : List Register) : Decidable (a.Predictable rs) := by
  unfold Address.Predictable; infer_instance

namespace Machine.State

/-- Other values in some core registers. -/
def fill (s : State) : List Register → List Word → State
  | r :: rs, x :: xs => (s.write r x).fill rs xs
  | _, _ => s

/-- The base register of an address moved, if the address moves it. -/
def moveBase (s : State) (a : Address) : State :=
  match (a.access s).base with
  | some x => s.write a.base x
  | none => s

/-- A transfer of core registers. -/
def transfer (s : State) (load : Bool) (size : OperandSize) (rs : List Register) (a : Address) :
    Option State :=
  let address := (a.access s).address
  if ¬ a.Predictable rs then none
  else if load then
    (size.load s.memory address).map fun xs ↦ ((s.moveBase a).fill rs xs).advance
  else
    (size.store s.memory address (rs.map s.read)).map fun memory ↦
      { s.moveBase a with memory }.advance

/-- The words of a VFP register, the low one first. -/
def words (s : State) : {p : Precision} → FloatRegister p → List Word
  | .single, d => [s.single d]
  | .double, d => [(s.double d).extractLsb' 0 32, (s.double d).extractLsb' 32 32]

/-- Other words in a VFP register. -/
def writeWords (s : State) : {p : Precision} → FloatRegister p → List Word → State
  | .single, d, [x] => s.writeSingle d x
  | .double, d, [x, y] => s.writeDouble d (y ++ x)
  | _, _, _ => s

/-- A transfer of a VFP register. -/
def transferFloat (s : State) (load : Bool) {p : Precision} (d : FloatRegister p) (a : Address) :
    Option State :=
  let size := Sequence.floatSize p
  let address := (a.access s).address
  if load then (size.load s.memory address).map fun xs ↦ (s.writeWords d xs).advance
  else (size.store s.memory address (s.words d)).map fun memory ↦ { s with memory }.advance

end Machine.State

open Machine

/-- The state after a core instruction whose condition holds, transfers included. A pair must not be
loaded over the register that its distance is taken from. -/
def CoreInstruction.perform (s : State) : CoreInstruction → Option State
  | transfer load byte rd a => s.transfer load (if byte then .unsignedByte else .word) [rd] a
  | transferMisc op rd a => s.transfer op.isLoad op.size [rd] a
  | transferPair load rd rd2 a =>
    if load ∧ a.displacement.register? ∈ [some rd, some rd2] then none
    else s.transfer load .wordPair [rd, rd2] a
  | i => i.execute s

/-- The state after a floating-point instruction whose condition holds, transfers included. -/
def FloatInstruction.perform (u : FloatUnit) (s : State) : FloatInstruction → Option State
  | transfer load d a => s.transferFloat load d a
  | moveImmediate (p := .single) d imm8 => some (s.writeSingle d (Single.expand imm8)).advance
  | moveImmediate (p := .double) d imm8 => some (s.writeDouble d (Double.expand imm8)).advance
  | movePair false (p := .double) d rt rt2 =>
    (s.writeDouble d (s.core rt2 ++ s.core rt)).advance.unlessPc [rt, rt2]
  | i => i.execute u s

/-- The state after an instruction whose condition holds, transfers included. -/
def Instruction.perform (u : FloatUnit) (s : State) : Instruction → Option State
  | core i => i.perform s
  | float i => i.perform u s
  | vector _ => none

/-- The state after a predicated instruction, transfers included. -/
def Predicated.perform (u : FloatUnit) (s : State) (p : Predicated) : Option State :=
  if p.condition.holds s.flags then p.instruction.perform u s else some s.advance

variable {u : FloatUnit} {s t : State}

/-- What is executed without transfers is executed in the same way with them. -/
theorem Instruction.perform_of_execute {i : Instruction} (h : i.execute u s = some t) :
    i.perform u s = some t := by
  cases i with
  | core i =>
    cases i with
    | transfer | transferMisc | transferPair => cases h
    | _ => exact h
  | float i =>
    cases i with
    | transfer => cases h
    | moveImmediate => cases h
    | @movePair toCore p => cases toCore <;> cases p <;> cases h
    | _ => exact h
  | vector i => cases h

/-- So is what is executed under a condition. -/
theorem Predicated.perform_of_execute {p : Predicated} (h : p.execute u s = some t) :
    p.perform u s = some t := by
  unfold perform
  unfold execute at h
  split
  · next holds => exact Instruction.perform_of_execute (by rwa [if_pos holds] at h)
  · next fails => rwa [if_neg fails] at h

namespace Machine.State

variable {q r : Register} {rs : List Register} {x : Word} {xs : List Word}

/-- Filling core registers keeps the flags. -/
@[simp] theorem flags_fill : (s.fill rs xs).flags = s.flags := by
  fun_induction fill s rs xs <;> simp_all

/-- Filling core registers keeps the double registers. -/
@[simp] theorem double_fill : (s.fill rs xs).double = s.double := by
  fun_induction fill s rs xs <;> simp_all

/-- Filling core registers keeps the memory. -/
@[simp] theorem memory_fill : (s.fill rs xs).memory = s.memory := by
  fun_induction fill s rs xs <;> simp_all

/-- Filling registers leaves the others alone. -/
theorem core_fill_of_not_mem (outside : q ∉ rs) : (s.fill rs xs).core q = s.core q := by
  fun_induction fill s rs xs with
  | case1 s r rs x xs ih =>
    obtain ⟨other, outside⟩ := not_or.mp (List.mem_cons.not.mp outside)
    rw [ih outside, core_write, if_neg other]
  | case2 => rfl

/-- Registers that are filled hold what they are filled with. -/
theorem map_core_fill (distinct : rs.Nodup) (enough : xs.length = rs.length) :
    rs.map (s.fill rs xs).core = xs := by
  induction rs generalizing s xs with
  | nil => exact (List.eq_nil_of_length_eq_zero enough).symm
  | cons r rs ih =>
    obtain ⟨x, xs, rfl⟩ := List.exists_cons_of_length_eq_add_one enough
    obtain ⟨outside, distinct⟩ := List.nodup_cons.mp distinct
    have first : ((s.write r x).fill rs xs).core r = x := by
      rw [core_fill_of_not_mem outside, core_write, if_pos rfl]
    rw [List.map_cons, fill, first, ih distinct (Nat.succ.inj enough)]

variable {p : Precision} {d : FloatRegister p}

/-- Words for a floating-point register change no core register. -/
@[simp] theorem core_writeWords : (s.writeWords d xs).core = s.core := by
  fun_cases writeWords s d xs <;> rfl

/-- Words for a floating-point register keep the flags. -/
@[simp] theorem flags_writeWords : (s.writeWords d xs).flags = s.flags := by
  fun_cases writeWords s d xs <;> rfl

/-- Words for a floating-point register keep the memory. -/
@[simp] theorem memory_writeWords : (s.writeWords d xs).memory = s.memory := by
  fun_cases writeWords s d xs <;> rfl

end Machine.State

end A32Assembler
