import A32Assembler.Error

/-!
# Register fields

How a register number is written in an instruction, with the check that the register exists, and
how the register classes overlap. A core register is a four-bit field. A VFP register has a field of
four bits and one bit elsewhere in the word: the low bit of a single, the high bit of a double.
-/

namespace A32Assembler

namespace Register

/-- The four-bit field of a core register. -/
def code (r : Register) : Except Misuse (BitVec 4) :=
  if r.number < 16 then .ok (r.number.setWidth 4) else .error (.noRegister 16)

/-- The bit of a register in a register list. -/
def mask (r : Register) : Except Misuse Halfword :=
  if r.number < 16 then .ok (1 <<< r.number.toNat) else .error (.overflow .shift)

/-- The register after `r`. -/
def next (r : Register) : Except Misuse Register :=
  if r.number = 255 then .error (.overflow .addition) else .ok ⟨r.number + 1⟩

/-- A register has a field exactly when it exists, and the field is its number. -/
theorem code_eq_ok {r : Register} {c : BitVec 4} : r.code = .ok c ↔ r = ⟨c.setWidth 8⟩ := by
  obtain ⟨n⟩ := r
  unfold code
  by_cases h : n < 16
  · have bound : n.toNat < 16 := h
    simp only [h, ↓reduceIte, Except.ok.injEq, Register.mk.injEq]
    constructor
    · rintro rfl
      apply BitVec.eq_of_toNat_eq
      simp only [BitVec.toNat_setWidth]
      omega
    · rintro rfl
      apply BitVec.eq_of_toNat_eq
      simp only [BitVec.toNat_setWidth]
      omega
  · simp only [h, ↓reduceIte, reduceCtorEq, Register.mk.injEq, false_iff]
    rintro rfl
    exact h (by have := c.isLt; simp [BitVec.lt_def]; omega)

end Register

/-- A VFP register number cut into its four-bit field and the single bit stored elsewhere. -/
structure SplitNumber where
  field : BitVec 4
  extra : BitVec 1
deriving DecidableEq

/-- An absent operand: all bits zero. -/
def SplitNumber.zero : SplitNumber := ⟨0, 0⟩

namespace FloatRegister

/-- The two parts of a register number. A single keeps its low bit apart, a double its high bit. -/
def split {p : Precision} (r : FloatRegister p) : Except Misuse SplitNumber :=
  if r.number < 32 then
    match p with
    | .single => .ok ⟨r.number.extractLsb' 1 4, r.number.extractLsb' 0 1⟩
    | .double => .ok ⟨r.number.extractLsb' 0 4, r.number.extractLsb' 4 1⟩
  else .error (.noRegister 32)

/-- The single register in the low half of a double; `D16`-`D31` have none. -/
def lowHalf (d : DRegister) : Except Misuse SRegister :=
  if d.number < 16 then .ok ⟨d.number * 2⟩ else .error (.noHalves d)

/-- The single register in the high half of a double; `D16`-`D31` have none. -/
def highHalf (d : DRegister) : Except Misuse SRegister :=
  if d.number < 16 then .ok ⟨d.number * 2 + 1⟩ else .error (.noHalves d)

end FloatRegister

namespace QRegister

/-- The double register that a quadword register starts with. -/
def lowDouble (q : QRegister) : Except Misuse DRegister :=
  if q.number < 128 then .ok ⟨q.number * 2⟩ else .error (.overflow .multiplication)

/-- The double register that a quadword register ends with. -/
def highDouble (q : QRegister) : Except Misuse DRegister :=
  if q.number < 128 then .ok ⟨q.number * 2 + 1⟩ else .error (.overflow .multiplication)

/-- A lane as a single register; only `Q0`-`Q7` have such lanes. -/
def lane (q : QRegister) (index : Nat) : Except Misuse SRegister :=
  if q.number < 8 ∧ index < 4 then .ok ⟨q.number * 4 + BitVec.ofNat 8 index⟩
  else .error (.noLane q index)

/-- The parts of a quadword register number: those of its first double register. -/
def split (q : QRegister) : Except Misuse SplitNumber := do
  let d ← q.lowDouble
  d.split

end QRegister

/-- The condition that holds exactly when `c` does not. -/
def Condition.inverted (c : Condition) : Except Misuse Condition :=
  match c.inverse? with
  | some d => .ok d
  | none => .error .noInverse

end A32Assembler
