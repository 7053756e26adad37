import A32Assembler.Proofs.Decoding.Scalar

/-!
# Decoding of vector words

The vector instructions read off their words, by the tables of Advanced SIMD. Lane widths have two
bits, so the sizes of the same width are decoded as one of them; everything else is given back.
-/

namespace A32Assembler

namespace OperandSize

/-- The lane width with a given field. -/
def ofLaneBits : BitVec 2 → OperandSize
  | 0 => byte | 1 => halfword | 2 => word | 3 => wordPair

/-- The one size for all that have its lane width. -/
def lane (size : OperandSize) : OperandSize := ofLaneBits size.laneBits

end OperandSize

/-- The instruction with one size for each lane width. -/
def VectorInstruction.plain : VectorInstruction → VectorInstruction
  | lanes op size qd qn qm => lanes op size.lane qd qn qm
  | duplicate size qd dm index => duplicate size.lane qd dm index
  | i => i

/-- The first double of a quadword register, halved. -/
theorem QRegister.halve {q : QRegister} {s : SplitNumber} (h : q.split = .ok s) :
    (⟨(s.extra ++ s.field).setWidth 8 >>> 1⟩ : QRegister) = q := by
  obtain ⟨n⟩ := q
  obtain ⟨d, low, h⟩ := bind_eq_ok.mp h
  simp only [lowDouble] at low
  split at low
  · next bound =>
    cases low
    have joined : (s.extra ++ s.field).setWidth 8 = n * 2 :=
      congrArg FloatRegister.number (FloatRegister.join_double h)
    have bound : n.toNat < 128 := bound
    rw [QRegister.mk.injEq, joined]
    apply BitVec.eq_of_toNat_eq
    rw [BitVec.toNat_ushiftRight, BitVec.toNat_mul, Nat.shiftRight_eq_div_pow]
    change n.toNat * 2 % 256 / 2 = n.toNat
    omega
  · cases low

namespace Decode

open Word (place flag)

/-- The quadword register that is written as its first double. -/
def quadRegister (w : Word) (lsb extra : Nat) : QRegister :=
  ⟨(floatRegister .double w lsb extra).number >>> 1⟩

/-- Operations on integer lanes, by bits 11-8, 4 and 24. -/
def laneOp? (w : Word) : Option LaneOp :=
  match (w.extractLsb' 8 4).toNat, bit w 4, bit w 24 with
  | 3, false, false => some .gtSigned
  | 3, false, true => some .gtUnsigned
  | 3, true, false => some .geSigned
  | 3, true, true => some .geUnsigned
  | 4, false, false => some .shlSigned
  | 4, false, true => some .shlUnsigned
  | 8, false, false => some .add
  | 8, false, true => some .sub
  | 8, true, true => some .eq
  | 9, true, false => some .mul
  | _, _, _ => none

/-- Operations whose lanes have no width of their own, by bits 11-8, 4, 24 and 21-20. -/
def quadOp? (w : Word) : Option QuadOp :=
  match (w.extractLsb' 8 4).toNat, bit w 4, bit w 24, (w.extractLsb' 20 2).toNat with
  | 1, true, false, 0 => some .bitAnd
  | 1, true, false, 2 => some .bitOr
  | 1, true, false, 3 => some .bitOrNot
  | 1, true, true, 0 => some .bitXor
  | 13, false, false, 0 => some .add
  | 13, false, false, 2 => some .sub
  | 13, true, true, 0 => some .mul
  | 14, false, false, 0 => some .eq
  | 14, false, true, 0 => some .ge
  | 14, false, true, 2 => some .gt
  | 15, false, false, 0 => some .max
  | 15, false, false, 2 => some .min
  | 15, true, false, 0 => some .recipStep
  | 15, true, false, 2 => some .rsqrtStep
  | _, _, _, _ => none

/-- Operations on two registers, by bits 19-16 and 11-7. -/
def quadUnaryOp? (w : Word) : Option QuadUnaryOp :=
  match (w.extractLsb' 16 4).toNat, (w.extractLsb' 7 5).toNat with
  | 0, 11 => some .bitNot
  | 9, 14 => some .abs
  | 9, 15 => some .neg
  | 10, 3 => some .zip
  | 11, 10 => some .recipEstimate
  | 11, 11 => some .rsqrtEstimate
  | _, _ => none

/-- The lane of a double: the lowest set bit is the width, the bits above it are the index. -/
def lane? (field : BitVec 4) : Option (OperandSize × Nat) :=
  if field.extractLsb' 0 1 = 1 then some (.byte, (field.extractLsb' 1 3).toNat)
  else if field.extractLsb' 1 1 = 1 then some (.halfword, (field.extractLsb' 2 2).toNat)
  else if field.extractLsb' 2 1 = 1 then some (.word, (field.extractLsb' 3 1).toNat)
  else none

/-- Operations on three registers. -/
def vectorThree (w : Word) : Option VectorInstruction :=
  let d := quadRegister w 12 22
  let n := quadRegister w 16 7
  let m := quadRegister w 0 5
  match laneOp? w with
  | some op => some (.lanes op (.ofLaneBits (w.extractLsb' 20 2)) d n m)
  | none => (quadOp? w).map (.quad · d n m)

/-- Operations on two registers, table look-ups and copies of a lane, by bits 11-10. -/
def vectorTwo (w : Word) : Option VectorInstruction :=
  match (w.extractLsb' 10 2).toNat, bit w 6 with
  | 2, false =>
    some (.table (floatRegister .double w 12 22) (floatRegister .double w 16 7)
      ((w.extractLsb' 8 2).toNat + 1) (floatRegister .double w 0 5))
  | 3, true =>
    (lane? (w.extractLsb' 16 4)).map fun (size, index) ↦
      .duplicate size (quadRegister w 12 22) (floatRegister .double w 0 5) index
  | _, true => (quadUnaryOp? w).map (.unary · (quadRegister w 12 22) (quadRegister w 0 5))
  | _, false => none

/-- Every vector instruction: bits 31-25 are those of Advanced SIMD, bits 24-23 and 21-20 tell the
classes apart. -/
def vector (w : Word) : Option VectorInstruction :=
  if w.extractLsb' 28 4 ≠ 0xf ∨ w.extractLsb' 25 3 ≠ 1 then none
  else if bit w 23 = false then if bit w 6 then vectorThree w else none
  else if bit w 24 ∧ w.extractLsb' 20 2 = 3 then vectorTwo w
  else none

variable {w : Word}

/-- A vector word has no condition. -/
theorem top_of_vector {i : VectorInstruction} (h : vector w = some i) :
    w.extractLsb' 28 4 = 0xf#4 := by
  by_contra other
  simp [vector, other] at h

/-- A quadword register is read back from the two parts of its first double. -/
theorem quadRegister_eq {q : QRegister} {s : SplitNumber} {lsb extra : Nat} (h : q.split = .ok s)
    (field : w.extractLsb' lsb 4 = s.field) (single : w.extractLsb' extra 1 = s.extra) :
    quadRegister w lsb extra = q := by
  rw [← QRegister.halve h, ← field, ← single]
  rfl

/-- The field of a lane gives the lane back. -/
theorem lane?_laneField {size : OperandSize} {index : Nat} {field : BitVec 4}
    (h : Encoding.laneField size index = .ok field) : lane? field = some (size.lane, index) := by
  have bytes : ∀ i < 8, lane? (BitVec.ofNat 4 (2 * i + 1)) = some (.byte, i) := by decide
  have halfwords : ∀ i < 4, lane? (BitVec.ofNat 4 (4 * i + 2)) = some (.halfword, i) := by decide
  have words : ∀ i < 2, lane? (BitVec.ofNat 4 (8 * i + 4)) = some (.word, i) := by decide
  cases size <;> simp only [Encoding.laneField, bind_eq_ok, pure_eq_ok] at h
  case byte | unsignedByte =>
    obtain ⟨⟨⟩, few, rfl⟩ := h
    exact bytes index (require_eq_ok.mp few)
  case halfword | unsignedHalfword =>
    obtain ⟨⟨⟩, few, rfl⟩ := h
    exact halfwords index (require_eq_ok.mp few)
  case word | unsignedWord | single =>
    obtain ⟨⟨⟩, few, rfl⟩ := h
    exact words index (require_eq_ok.mp few)
  case wordPair | double => cases h

/-- What the fields of a word with three quadword registers hold, if its opcode keeps to its
place. -/
structure ThreeFields (w opcode : Word) (d n m : QRegister) : Prop where
  decoded : vector w = vectorThree w
  d_eq : quadRegister w 12 22 = d
  n_eq : quadRegister w 16 7 = n
  m_eq : quadRegister w 0 5 = m
  opc_8 : w.extractLsb' 8 4 = opcode.extractLsb' 8 4
  opc_4 : w.extractLsb' 4 1 = opcode.extractLsb' 4 1
  opc_24 : w.extractLsb' 24 1 = opcode.extractLsb' 24 1
  opc_20 : w.extractLsb' 20 2 = opcode.extractLsb' 20 2

/-- The word of an operation on three quadword registers shows its registers and the bits of its
opcode, provided that the opcode leaves the places of the registers free. -/
theorem threeFields {opcode : Word} (free : opcode &&& 0x01300f10 = opcode) {d n m : QRegister}
    (h : Encoding.vectorThree opcode d n m = .ok w) : ThreeFields w opcode d n m := by
  simp only [Encoding.vectorThree, bind_eq_ok, pure_eq_ok] at h
  obtain ⟨d', hd, n', hn, m', hm, h⟩ := h
  have out {s l : Nat} (zero : BitVec.extractLsb' s l (0x01300f10 : Word) = 0) :
      opcode.extractLsb' s l = 0 := by
    rw [← free, BitVec.extractLsb'_and, zero]
    exact BitVec.and_zero
  constructor
  case decoded =>
    simp (disch := decide) [← h, vector, bit, flag, BitVec.extractLsb'_or, out]
  case d_eq =>
    apply quadRegister_eq hd <;>
      simp (disch := decide) [← h, flag, BitVec.extractLsb'_or, out]
  case n_eq =>
    apply quadRegister_eq hn <;>
      simp (disch := decide) [← h, flag, BitVec.extractLsb'_or, out]
  case m_eq =>
    apply quadRegister_eq hm <;>
      simp (disch := decide) [← h, flag, BitVec.extractLsb'_or, out]
  all_goals
    simp (disch := decide) [← h, flag, BitVec.extractLsb'_or]

/-- Operations on integer lanes. -/
theorem vector_lanes {c : Condition} {op : LaneOp} {size : OperandSize} {qd qn qm : QRegister}
    (h : (VectorInstruction.lanes op size qd qn qm).encode c = .ok w) :
    vector w = some (.lanes op size.lane qd qn qm) := by
  simp only [VectorInstruction.encode, bind_eq_ok] at h
  obtain ⟨⟨⟩, -, ⟨⟩, -, h⟩ := h
  have fields := threeFields (by cases op <;> cases size <;> rfl) h
  have op_eq : laneOp? w = some op := by
    cases op <;>
      simp [laneOp?, bit, fields.opc_8, fields.opc_4, fields.opc_24, LaneOp.bits,
        BitVec.extractLsb'_or]
  have size_eq : w.extractLsb' 20 2 = size.laneBits := by
    cases op <;> simp [fields.opc_20, LaneOp.bits, BitVec.extractLsb'_or]
  rw [fields.decoded, vectorThree, op_eq, fields.d_eq, fields.n_eq, fields.m_eq, size_eq]
  rfl

/-- Operations whose lanes have no width of their own. -/
theorem vector_quad {c : Condition} {op : QuadOp} {qd qn qm : QRegister}
    (h : (VectorInstruction.quad op qd qn qm).encode c = .ok w) :
    vector w = some (.quad op qd qn qm) := by
  simp only [VectorInstruction.encode, bind_eq_ok] at h
  obtain ⟨⟨⟩, -, h⟩ := h
  have fields := threeFields (by cases op <;> rfl) h
  have no_lanes : laneOp? w = none := by
    cases op <;> simp [laneOp?, fields.opc_8, QuadOp.bits]
  have op_eq : quadOp? w = some op := by
    cases op <;>
      simp [quadOp?, bit, fields.opc_8, fields.opc_4, fields.opc_24, fields.opc_20, QuadOp.bits]
  rw [fields.decoded, vectorThree, no_lanes, op_eq, fields.d_eq, fields.n_eq, fields.m_eq]
  rfl

/-- Operations on two registers. -/
theorem vector_unary {c : Condition} {op : QuadUnaryOp} {qd qm : QRegister}
    (h : (VectorInstruction.unary op qd qm).encode c = .ok w) :
    vector w = some (.unary op qd qm) := by
  simp only [VectorInstruction.encode, Encoding.vectorTwo, bind_eq_ok, pure_eq_ok] at h
  obtain ⟨⟨⟩, -, d, hd, m, hm, h⟩ := h
  have d_eq : quadRegister w 12 22 = qd := by
    apply quadRegister_eq hd <;>
      cases op <;> simp [← h, flag, QuadUnaryOp.bits, BitVec.extractLsb'_or]
  have m_eq : quadRegister w 0 5 = qm := by
    apply quadRegister_eq hm <;>
      cases op <;> simp [← h, flag, QuadUnaryOp.bits, BitVec.extractLsb'_or]
  have op_eq : quadUnaryOp? w = some op := by
    cases op <;> simp [← h, quadUnaryOp?, flag, QuadUnaryOp.bits, BitVec.extractLsb'_or]
  have decoded : vector w = (quadUnaryOp? w).map
      (.unary · (quadRegister w 12 22) (quadRegister w 0 5)) := by
    cases op <;>
      simp [← h, vector, vectorTwo, bit, flag, QuadUnaryOp.bits, BitVec.extractLsb'_or]
  rw [decoded, op_eq, d_eq, m_eq]
  rfl

/-- Copies of a lane. -/
theorem vector_duplicate {c : Condition} {size : OperandSize} {qd : QRegister} {dm : DRegister}
    {index : Nat} (h : (VectorInstruction.duplicate size qd dm index).encode c = .ok w) :
    vector w = some (.duplicate size.lane qd dm index) := by
  simp only [VectorInstruction.encode, Encoding.vectorDuplicate, bind_eq_ok, pure_eq_ok] at h
  obtain ⟨⟨⟩, -, field, lane, d, hd, m, hm, h⟩ := h
  have d_eq : quadRegister w 12 22 = qd := by
    apply quadRegister_eq hd <;> simp [← h, flag, BitVec.extractLsb'_or]
  have m_eq : floatRegister .double w 0 5 = dm := by
    apply floatRegister_eq hm <;> simp [← h, flag, BitVec.extractLsb'_or]
  have field_eq : w.extractLsb' 16 4 = field := by
    simp [← h, flag, BitVec.extractLsb'_or]
  have decoded : vector w = (lane? (w.extractLsb' 16 4)).map fun (size, index) ↦
      .duplicate size (quadRegister w 12 22) (floatRegister .double w 0 5) index := by
    simp [← h, vector, vectorTwo, bit, flag, BitVec.extractLsb'_or]
  rw [decoded, field_eq, lane?_laneField lane, d_eq, m_eq]
  rfl

/-- Table look-ups. -/
theorem vector_table {c : Condition} {dd dn dm : DRegister} {length : Nat}
    (h : (VectorInstruction.table dd dn length dm).encode c = .ok w) :
    vector w = some (.table dd dn length dm) := by
  simp only [VectorInstruction.encode, Encoding.vectorTable, bind_eq_ok, pure_eq_ok] at h
  obtain ⟨⟨⟩, -, ⟨⟩, few, ⟨⟩, -, d, hd, n, hn, m, hm, h⟩ := h
  have few := require_eq_ok.mp few
  have d_eq : floatRegister .double w 12 22 = dd := by
    apply floatRegister_eq hd <;> simp [← h, BitVec.extractLsb'_or]
  have n_eq : floatRegister .double w 16 7 = dn := by
    apply floatRegister_eq hn <;> simp [← h, BitVec.extractLsb'_or]
  have m_eq : floatRegister .double w 0 5 = dm := by
    apply floatRegister_eq hm <;> simp [← h, BitVec.extractLsb'_or]
  have length_eq : (w.extractLsb' 8 2).toNat + 1 = length := by
    have field : w.extractLsb' 8 2 = BitVec.ofNat 2 (length - 1) := by
      simp [← h, BitVec.extractLsb'_or]
    rw [field, BitVec.toNat_ofNat]
    omega
  have decoded : vector w = some (.table (floatRegister .double w 12 22)
      (floatRegister .double w 16 7) ((w.extractLsb' 8 2).toNat + 1)
      (floatRegister .double w 0 5)) := by
    simp [← h, vector, vectorTwo, bit, BitVec.extractLsb'_or]
  rw [decoded, d_eq, n_eq, m_eq, length_eq]

/-- Every vector instruction is read back from its word, with one size for each lane width. -/
theorem vector_encode {c : Condition} {i : VectorInstruction} (h : i.encode c = .ok w) :
    vector w = some i.plain := by
  cases i with
  | lanes op size qd qn qm => exact vector_lanes h
  | quad op qd qn qm => exact vector_quad h
  | unary op qd qm => exact vector_unary h
  | duplicate size qd dm index => exact vector_duplicate h
  | table dd dn length dm => exact vector_table h

end Decode

end A32Assembler
