import A32Assembler.Condition
import A32Assembler.Proofs.Word.Field
import A32Assembler.Register
import Mathlib.Logic.Function.Basic

/-!
# Machine states

What A32 code works on: the core registers, the condition flags, the doubles of the VFP unit with
the singles inside them, and data memory. The program counter is the core register `PC`; it holds
the address of the instruction that comes next, and an instruction that reads it sees eight more.
-/

namespace A32Assembler

/-- The condition flags. -/
structure Flags where
  n : Bool
  z : Bool
  c : Bool
  v : Bool
deriving DecidableEq

/-- Whether an instruction under a condition is executed. -/
def Condition.holds (f : Flags) : Condition → Bool
  | eq => f.z | ne => !f.z | cs => f.c | cc => !f.c
  | mi => f.n | pl => !f.n | vs => f.v | vc => !f.v
  | hi => f.c && !f.z | ls => !f.c || f.z | ge => f.n == f.v | lt => f.n != f.v
  | gt => !f.z && f.n == f.v | le => f.z || f.n != f.v | al => true

/-- An instruction under `AL` is always executed. -/
@[simp] theorem Condition.holds_al (f : Flags) : Condition.al.holds f = true := rfl

/-- Every condition holds for some flags. -/
theorem Condition.exists_holds (c : Condition) : ∃ f, c.holds f := by
  cases c with
  | eq | cc | ls | lt | le | mi => exact ⟨⟨true, true, false, false⟩, rfl⟩
  | vs => exact ⟨⟨false, false, false, true⟩, rfl⟩
  | ne | cs | pl | vc | hi | ge | gt | al => exact ⟨⟨false, false, true, false⟩, rfl⟩

/-- Data memory by bytes; an address without a byte cannot be accessed. -/
abbrev Memory := Word → Option Byte

namespace Machine

/-- Everything an instruction can read or change. -/
structure State where
  core : Register → Word
  flags : Flags
  double : DRegister → Doubleword
  memory : Memory

namespace State

variable (s : State)

/-- A core register as an instruction reads it. -/
def read (r : Register) : Word := if r = .pc then s.core .pc + 8 else s.core r

/-- Another value in a core register. -/
def write (r : Register) (x : Word) : State := { s with core := Function.update s.core r x }

/-- The next instruction in a row. -/
def advance : State := s.write .pc (s.core .pc + 4)

/-- The end of an instruction with a result: a result for `PC` is a branch, any other goes to its
register and the next instruction in a row follows. -/
def put (r : Register) (x : Word) : State :=
  if r = .pc then s.write .pc x else (s.write r x).advance

/-- The half of a double in which a single register lies: odd singles are the upper halves. -/
def single (r : SRegister) : Word :=
  if r.number % 2 = 0 then (s.double r.container).extractLsb' 0 32
  else (s.double r.container).extractLsb' 32 32

/-- Another pattern in a double register. -/
def writeDouble (r : DRegister) (x : Doubleword) : State :=
  { s with double := Function.update s.double r x }

/-- Another pattern in a single register; the other half of its double keeps its own. -/
def writeSingle (r : SRegister) (x : Word) : State :=
  let whole := s.double r.container
  s.writeDouble r.container
    (if r.number % 2 = 0 then whole.extractLsb' 32 32 ++ x else x ++ whole.extractLsb' 0 32)

variable {s} {q r : Register} {x : Word}

/-- Every register but the program counter is read as it stands. -/
theorem read_of_ne (h : r ≠ .pc) : s.read r = s.core r := if_neg h

/-- The program counter is read two instructions ahead. -/
@[simp] theorem read_pc : s.read .pc = s.core .pc + 8 := rfl

/-- A value in one core register changes this one only. -/
@[simp] theorem core_write : (s.write r x).core q = if q = r then x else s.core q := by
  simp [write, Function.update_apply]

/-- A value in a core register keeps the flags. -/
@[simp] theorem flags_write : (s.write r x).flags = s.flags := rfl

/-- A value in a core register keeps the double registers. -/
@[simp] theorem double_write : (s.write r x).double = s.double := rfl

/-- A value in a core register keeps the memory. -/
@[simp] theorem memory_write : (s.write r x).memory = s.memory := rfl

/-- Going on to the next instruction changes the program counter only. -/
@[simp] theorem core_advance :
    s.advance.core q = if q = .pc then s.core .pc + 4 else s.core q := core_write

/-- Going on keeps the flags. -/
@[simp] theorem flags_advance : s.advance.flags = s.flags := rfl

/-- Going on keeps the double registers. -/
@[simp] theorem double_advance : s.advance.double = s.double := rfl

/-- Going on keeps the memory. -/
@[simp] theorem memory_advance : s.advance.memory = s.memory := rfl

variable {d e : DRegister} {y : Doubleword} {f : SRegister}

/-- Going on keeps the single registers. -/
@[simp] theorem single_advance : s.advance.single f = s.single f := rfl

/-- A result changes its register and the program counter only. -/
theorem core_put (h : r ≠ .pc) :
    (s.put r x).core q = if q = .pc then s.core .pc + 4 else if q = r then x else s.core q := by
  simp [put, h, Ne.symm h]

/-- A result for the program counter is where the code goes on. -/
@[simp] theorem core_put_pc : (s.put .pc x).core q = if q = .pc then x else s.core q := by
  simp [put]

/-- A result keeps the flags. -/
@[simp] theorem flags_put : (s.put r x).flags = s.flags := by
  unfold put; split <;> rfl

/-- A result for a core register keeps the double registers. -/
@[simp] theorem double_put : (s.put r x).double = s.double := by
  unfold put; split <;> rfl

/-- A result for a core register keeps the memory. -/
@[simp] theorem memory_put : (s.put r x).memory = s.memory := by
  unfold put; split <;> rfl

/-- A pattern in one double register changes this one only. -/
@[simp] theorem double_writeDouble :
    (s.writeDouble d y).double e = if e = d then y else s.double e := by
  simp [writeDouble, Function.update_apply]

/-- A pattern in a double register keeps the core registers. -/
@[simp] theorem core_writeDouble : (s.writeDouble d y).core = s.core := rfl

/-- A pattern in a double register keeps the flags. -/
@[simp] theorem flags_writeDouble : (s.writeDouble d y).flags = s.flags := rfl

/-- A pattern in a double register keeps the memory. -/
@[simp] theorem memory_writeDouble : (s.writeDouble d y).memory = s.memory := rfl

/-- A pattern in a single register keeps the core registers. -/
@[simp] theorem core_writeSingle : (s.writeSingle f x).core = s.core := rfl

/-- A pattern in a single register keeps the flags. -/
@[simp] theorem flags_writeSingle : (s.writeSingle f x).flags = s.flags := rfl

/-- A pattern in a single register keeps the memory. -/
@[simp] theorem memory_writeSingle : (s.writeSingle f x).memory = s.memory := rfl

/-- Writing a single register leaves every double but its container alone. -/
theorem double_writeSingle_of_ne (h : e ≠ f.container) :
    (s.writeSingle f x).double e = s.double e := by
  simp [writeSingle, h]

/-- A single register reads back what was written to it. -/
@[simp] theorem single_writeSingle : (s.writeSingle f x).single f = x := by
  simp only [writeSingle, single, double_writeDouble, ↓reduceIte]
  split
  · exact BitVec.extractLsb'_append_eq_right
  · exact BitVec.extractLsb'_append_eq_left

/-- A single register is told by its double and its half of it. -/
theorem eq_of_container {g : SRegister} (same : g.container = f.container)
    (half : g.number % 2 = 0 ↔ f.number % 2 = 0) : g = f := by
  have whole : g.number / 2 = f.number / 2 := congrArg FloatRegister.number same
  have two : (2 : Byte).toNat = 2 := rfl
  have zero : (0 : Byte).toNat = 0 := rfl
  have numbers : g.number = f.number := by
    simp only [← BitVec.toNat_inj, BitVec.toNat_udiv, BitVec.toNat_umod, two, zero] at whole half ⊢
    omega
  exact congrArg FloatRegister.mk numbers

/-- Writing a single register leaves every other one alone, also in the same double. -/
theorem single_writeSingle_of_ne {g : SRegister} (h : g ≠ f) :
    (s.writeSingle f x).single g = s.single g := by
  by_cases same : g.container = f.container
  · have other : ¬ (g.number % 2 = 0 ↔ f.number % 2 = 0) := fun half ↦ h (eq_of_container same half)
    simp only [single, same, writeSingle, double_writeDouble, ↓reduceIte]
    by_cases even : f.number % 2 = 0
    · have odd : ¬ g.number % 2 = 0 := fun half ↦ other (iff_of_true half even)
      simp only [if_pos even, if_neg odd]
      exact BitVec.extractLsb'_append_eq_left
    · have half : g.number % 2 = 0 := by_contra fun odd ↦ other (iff_of_false odd even)
      simp only [if_neg even, if_pos half]
      exact BitVec.extractLsb'_append_eq_right
  · simp only [single, double_writeSingle_of_ne same]

/-- Apart from some core registers, the program counter, some doubles and the flags, nothing has
changed. -/
structure Keeps (s t : State) (cores : List Register) (doubles : List DRegister) : Prop where
  core : ∀ r, r ≠ .pc → r ∉ cores → t.core r = s.core r
  double : ∀ d, d ∉ doubles → t.double d = s.double d
  memory : t.memory = s.memory

variable {t v : State} {cores cores' : List Register} {doubles doubles' : List DRegister}

/-- A result changes its register only. -/
theorem keeps_put (h : r ≠ .pc) : s.Keeps (s.put r x) [r] [] := by
  refine ⟨fun q other outside ↦ ?_, by simp, by simp⟩
  rw [core_put h, if_neg other, if_neg (by simpa using outside)]

/-- Nothing has changed. -/
theorem Keeps.refl : s.Keeps s cores doubles := ⟨fun _ _ _ ↦ rfl, fun _ _ ↦ rfl, rfl⟩

/-- Going on to the next instruction changes nothing. -/
theorem Keeps.advance (h : s.Keeps t cores doubles) : s.Keeps t.advance cores doubles where
  core q other outside := by rw [core_advance, if_neg other, h.core q other outside]
  double := h.double
  memory := h.memory

/-- Setting the flags changes nothing. -/
theorem keeps_flags {f : Flags} : s.Keeps { s with flags := f } [] [] :=
  ⟨fun _ _ _ ↦ rfl, fun _ _ ↦ rfl, rfl⟩

/-- Writing a double changes that double. -/
theorem keeps_writeDouble : s.Keeps (s.writeDouble d y) [] [d] := by
  refine ⟨by simp, fun e outside ↦ ?_, rfl⟩
  rw [double_writeDouble, if_neg (by simpa using outside)]

/-- Writing a single changes the double that it lies in. -/
theorem keeps_writeSingle (inside : f.container = d) : s.Keeps (s.writeSingle f x) [] [d] := by
  refine ⟨by simp, fun e outside ↦ ?_, rfl⟩
  rw [double_writeSingle_of_ne (by simpa [inside] using outside)]

/-- What is not changed twice is not changed. -/
theorem Keeps.trans (first : s.Keeps t cores doubles) (second : t.Keeps v cores doubles) :
    s.Keeps v cores doubles where
  core q other outside := (second.core q other outside).trans (first.core q other outside)
  double d outside := (second.double d outside).trans (first.double d outside)
  memory := second.memory.trans first.memory

/-- More may have changed. -/
theorem Keeps.mono (h : s.Keeps t cores doubles) (more : cores ⊆ cores')
    (more' : doubles ⊆ doubles') : s.Keeps t cores' doubles' where
  core q other outside := h.core q other fun inside ↦ outside (more inside)
  double d outside := h.double d fun inside ↦ outside (more' inside)
  memory := h.memory

/-- What the first or the second may have changed, both may have changed. -/
theorem Keeps.andThen (first : s.Keeps t cores doubles) (second : t.Keeps v cores' doubles') :
    s.Keeps v (cores ++ cores') (doubles ++ doubles') :=
  (first.mono (List.subset_append_left _ _) (List.subset_append_left _ _)).trans
    (second.mono (List.subset_append_right _ _) (List.subset_append_right _ _))

end State

end Machine

end A32Assembler
