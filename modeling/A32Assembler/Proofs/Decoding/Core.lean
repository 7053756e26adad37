import A32Assembler.Proofs.Check
import A32Assembler.Proofs.Machine.Decode

/-!
# Decoding of encoded core instructions

The decoder gives back the instruction that a word was encoded from, with its condition. The only
operands that it changes are those written in two ways: a register shifted left by zero is the
register itself, and a rotation by zero is the rotation through the carry.
-/

namespace A32Assembler

/-- The operand that the decoder gives for the bits of an operand. -/
def Operand.canonical : Operand → Operand
  | shifted rm s field =>
    if s = .lsl ∧ field = 0 then register rm
    else if s = .ror ∧ field = 0 then extended rm
    else shifted rm s field
  | o => o

namespace Decode

open Word (place flag)

variable {c : Condition} {w : Word}

/-- The condition field tells the conditions apart. -/
@[simp] theorem condition?_bits (c : Condition) : condition? c.bits = some c := by
  cases c <;> rfl

/-- The type field tells the shifts apart. -/
@[simp] theorem shift_bits (s : Shift) : shift s.bits = s := by
  cases s <;> rfl

/-- The two parts of a wide constant, joined. -/
theorem wide_parts (imm : Halfword) : imm.extractLsb' 12 4 ++ imm.extractLsb' 0 12 = imm :=
  (BitVec.extractLsb'_append_extractLsb'_eq_extractLsb' rfl).trans BitVec.extractLsb'_eq_self

/-- A word with a condition is decoded by its class. -/
theorem decode_of_instruction? {i : Instruction} (hc : w.extractLsb' 28 4 = c.bits)
    (hi : instruction? w = some i) : decode w = some ⟨c, i⟩ := by
  simp [decode, hc, hi]

/-- The bits of an operand end below bit 12. -/
theorem extractLsb'_encoding {o : Operand} {x : Word} (hx : o.encoding = .ok x) {s l : Nat}
    (h : 12 ≤ s) (fits : s + l ≤ 32) : x.extractLsb' s l = 0 := by
  cases o <;> simp only [Operand.encoding, bind_eq_ok, pure_eq_ok, Except.ok.injEq] at hx
  case immediate => subst hx; simp (disch := omega) [BitVec.extractLsb'_or]
  case register => obtain ⟨m, -, rfl⟩ := hx; simp (disch := omega)
  case shifted => obtain ⟨m, -, rfl⟩ := hx; simp (disch := omega) [BitVec.extractLsb'_or]
  case shiftedBy =>
    obtain ⟨r, -, m, -, rfl⟩ := hx
    simp (disch := omega) [flag, BitVec.extractLsb'_or]
  case extended => obtain ⟨m, -, rfl⟩ := hx; simp (disch := omega) [BitVec.extractLsb'_or]

/-- A register operand never sets the two bits that mark multiplications. -/
theorem encoding_not_multiply {o : Operand} {x : Word} (hx : o.encoding = .ok x)
    (register : o.isImmediate = false) : ¬ (bit x 7 = true ∧ bit x 4 = true) := by
  cases o <;> simp only [Operand.encoding, bind_eq_ok, pure_eq_ok, Except.ok.injEq] at hx
  case immediate => simp [Operand.isImmediate] at register
  case register => obtain ⟨m, -, rfl⟩ := hx; simp [bit]
  case shifted => obtain ⟨m, -, rfl⟩ := hx; simp [bit, BitVec.extractLsb'_or]
  case shiftedBy =>
    obtain ⟨r, -, m, -, rfl⟩ := hx
    simp [bit, flag, BitVec.extractLsb'_or]
  case extended => obtain ⟨m, -, rfl⟩ := hx; simp [bit, BitVec.extractLsb'_or]

/-- The twelve bits of an operand give it back. -/
theorem operand_encoding {o : Operand} {x : Word} (hx : o.encoding = .ok x) :
    operand o.isImmediate (x.extractLsb' 0 12) = o.canonical := by
  -- the twelve bits are kept whole until a range of them is read
  cases o <;> simp only [Operand.encoding, bind_eq_ok, pure_eq_ok, Except.ok.injEq] at hx
  case immediate rotate imm8 =>
    subst hx
    simp [-Word.extractLsb'_place_of_lt, operand, Operand.isImmediate, Operand.canonical,
      BitVec.extractLsb'_or]
  case register rm =>
    obtain ⟨m, hm, rfl⟩ := hx
    obtain rfl := Register.code_eq_ok.mp hm
    simp [operand, Operand.isImmediate, Operand.canonical, shift]
  case shifted rm s field =>
    obtain ⟨m, hm, rfl⟩ := hx
    obtain rfl := Register.code_eq_ok.mp hm
    simp [-Word.extractLsb'_place_of_lt, operand, Operand.isImmediate, Operand.canonical,
      BitVec.extractLsb'_or]
  case shiftedBy rm s rs =>
    obtain ⟨r, hr, m, hm, rfl⟩ := hx
    obtain rfl := Register.code_eq_ok.mp hm
    obtain rfl := Register.code_eq_ok.mp hr
    simp [-Word.extractLsb'_place_of_lt, flag, operand, Operand.isImmediate, Operand.canonical,
      BitVec.extractLsb'_or]
  case extended rm =>
    obtain ⟨m, hm, rfl⟩ := hx
    obtain rfl := Register.code_eq_ok.mp hm
    simp [-Word.extractLsb'_place_of_lt, operand, Operand.isImmediate, Operand.canonical,
      BitVec.extractLsb'_or]

/-- Data processing: the opcode says which instruction it is. The comparisons must set the flags, as
their place without flags belongs to other instructions. -/
theorem decode_dataProcessing {opcode : BitVec 4} {setFlags : Bool} {rn rd : Register}
    {o : Operand} (h : Encoding.dataProcessing c opcode setFlags rn rd o = .ok w)
    (compares : opcode.extractLsb' 2 2 = 2 → setFlags = true) :
    decode w = some ⟨c, .core (ofOpcode opcode setFlags rn rd o.canonical)⟩ := by
  simp only [Encoding.dataProcessing, bind_eq_ok, pure_eq_ok] at h
  obtain ⟨n, hn, d, hd, x, hx, rfl⟩ := h
  obtain rfl := Register.code_eq_ok.mp hn
  obtain rfl := Register.code_eq_ok.mp hd
  have usual : opcode.extractLsb' 2 2 = 2#2 → ¬ setFlags = false := by
    intro two
    simp [compares two]
  have high {s l : Nat} (hs : 12 ≤ s) (fits : s + l ≤ 32) :=
    extractLsb'_encoding hx (l := l) hs fits
  apply decode_of_instruction?
  · simp [Encoding.condition, flag, BitVec.extractLsb'_or, high]
  · cases hi : o.isImmediate with
    | true =>
      simp [instruction?, immediateClass, isMiscellaneous, dataProcessing, register, bit,
        Encoding.condition, flag, BitVec.extractLsb'_or, high, ← operand_encoding hx, hi]
      exact fun two unset ↦ absurd unset (usual two)
    | false =>
      simp [instruction?, registerClass, isMiscellaneous, dataProcessing, register, bit,
        Encoding.condition, flag, BitVec.extractLsb'_or, high, ← operand_encoding hx, hi]
      have single := encoding_not_multiply hx hi
      rw [if_neg (by simpa [bit] using single), if_neg fun h ↦ usual h.1 h.2]

/-- An operation with a result. -/
theorem decode_arithmetic {op : ArithmeticOp} {setFlags : Bool} {rd rn : Register} {o : Operand}
    (h : (CoreInstruction.arithmetic op setFlags rd rn o).encode c = .ok w) :
    decode w = some ⟨c, .core (.arithmetic op setFlags rd rn o.canonical)⟩ := by
  have decoded := decode_dataProcessing h (by cases op <;> simp [ArithmeticOp.opcode, Opcode.bits])
  cases op <;> exact decoded

/-- A comparison. -/
theorem decode_compare {op : ComparisonOp} {rn : Register} {o : Operand}
    (h : (CoreInstruction.compare op rn o).encode c = .ok w) :
    decode w = some ⟨c, .core (.compare op rn o.canonical)⟩ := by
  have decoded := decode_dataProcessing h fun _ ↦ rfl
  cases op <;> exact decoded

/-- An operation on one value. -/
theorem decode_move {op : MoveOp} {setFlags : Bool} {rd : Register} {o : Operand}
    (h : (CoreInstruction.move op setFlags rd o).encode c = .ok w) :
    decode w = some ⟨c, .core (.move op setFlags rd o.canonical)⟩ := by
  have decoded := decode_dataProcessing h (by cases op <;> simp [MoveOp.opcode, Opcode.bits])
  cases op <;> exact decoded

/-- A wide move. -/
theorem decode_moveWide {top : Bool} {rd : Register} {imm : Halfword}
    (h : (CoreInstruction.moveWide top rd imm).encode c = .ok w) :
    decode w = some ⟨c, .core (.moveWide top rd imm)⟩ := by
  simp only [CoreInstruction.encode, Encoding.moveWide, bind_eq_ok, pure_eq_ok] at h
  obtain ⟨d, hd, rfl⟩ := h
  obtain rfl := Register.code_eq_ok.mp hd
  cases top <;>
    simp [decode, instruction?, immediateClass, isMiscellaneous, bit, register, Encoding.condition,
      flag, BitVec.extractLsb'_or, wide_parts]

/-- The fields of a multiplication. -/
theorem decode_multiply (op : BitVec 3) {setFlags : Bool} {hi lo rm rn : Register}
    (h : Encoding.multiply c (op.setWidth 32) setFlags hi lo rm rn = .ok w) :
    decode w = (multiply w).map (⟨c, .core ·⟩) ∧ w.extractLsb' 21 3 = op ∧ bit w 20 = setFlags ∧
      register w 16 = hi ∧ register w 12 = lo ∧ register w 8 = rm ∧ register w 0 = rn := by
  simp only [Encoding.multiply, bind_eq_ok, pure_eq_ok] at h
  obtain ⟨h, hh, l, hl, m, hm, n, hn, rfl⟩ := h
  obtain rfl := Register.code_eq_ok.mp hh
  obtain rfl := Register.code_eq_ok.mp hl
  obtain rfl := Register.code_eq_ok.mp hm
  obtain rfl := Register.code_eq_ok.mp hn
  have short : place 21 (op.setWidth 32) = place 21 op := by simp [place]
  rw [short]
  simp [decode, instruction?, registerClass, bit, register, Encoding.condition, flag,
    BitVec.extractLsb'_or, Function.comp_def]

/-- A multiplication. -/
theorem decode_mul {setFlags : Bool} {rd rn rm : Register}
    (h : (CoreInstruction.multiply setFlags rd rn rm).encode c = .ok w) :
    decode w = some ⟨c, .core (.multiply setFlags rd rn rm)⟩ := by
  obtain ⟨decoded, op, sets, hi, lo, second, first⟩ := decode_multiply 0 h
  simp [decoded, multiply, op, sets, hi, second, first]

/-- A multiplication whose product is added or subtracted. -/
theorem decode_multiplyAccumulate {subtract : Bool} {rd rn rm ra : Register}
    (h : (CoreInstruction.multiplyAccumulate subtract rd rn rm ra).encode c = .ok w) :
    decode w = some ⟨c, .core (.multiplyAccumulate subtract rd rn rm ra)⟩ := by
  cases subtract with
  | false =>
    obtain ⟨decoded, op, sets, hi, lo, second, first⟩ := decode_multiply 1 h
    simp [decoded, multiply, op, sets, hi, lo, second, first]
  | true =>
    obtain ⟨decoded, op, sets, hi, lo, second, first⟩ := decode_multiply 3 h
    simp [decoded, multiply, op, sets, hi, lo, second, first]

/-- A multiplication with a 64-bit result. -/
theorem decode_multiplyLong {op : LongMultiplyOp} {lo hi rn rm : Register}
    (h : (CoreInstruction.multiplyLong op lo hi rn rm).encode c = .ok w) :
    decode w = some ⟨c, .core (.multiplyLong op lo hi rn rm)⟩ := by
  simp only [CoreInstruction.encode, bind_eq_ok] at h
  obtain ⟨⟨⟩, -, h⟩ := h
  have three : op.bits = (op.bits.extractLsb' 0 3).setWidth 32 := by cases op <;> rfl
  rw [three] at h
  obtain ⟨decoded, field, sets, high, low, second, first⟩ := decode_multiply _ h
  cases op <;>
    simp [decoded, multiply, LongMultiplyOp.bits, field, sets, high, low, second, first]

/-- A division. -/
theorem decode_divide {unsigned : Bool} {rd rn rm : Register}
    (h : (CoreInstruction.divide unsigned rd rn rm).encode c = .ok w) :
    decode w = some ⟨c, .core (.divide unsigned rd rn rm)⟩ := by
  simp only [CoreInstruction.encode, Encoding.divide, bind_eq_ok, pure_eq_ok] at h
  obtain ⟨d, hd, m, hm, n, hn, rfl⟩ := h
  obtain rfl := Register.code_eq_ok.mp hd
  obtain rfl := Register.code_eq_ok.mp hm
  obtain rfl := Register.code_eq_ok.mp hn
  cases unsigned <;>
    simp [decode, instruction?, media, bit, register, Encoding.condition, flag,
      BitVec.extractLsb'_or]

/-- A block transfer. -/
theorem decode_transferBlock {load : Bool} {mode : BlockMode} {base : Register} {list : Halfword}
    (h : (CoreInstruction.transferBlock load mode base list).encode c = .ok w) :
    decode w = some ⟨c, .core (.transferBlock load mode base list)⟩ := by
  simp only [CoreInstruction.encode, Encoding.blockTransfer, bind_eq_ok, pure_eq_ok] at h
  obtain ⟨-, -, b, hb, rfl⟩ := h
  obtain rfl := Register.code_eq_ok.mp hb
  simp [decode, instruction?, block, bit, register, Encoding.condition, flag, BlockMode.bits,
    BitVec.extractLsb'_or]

/-- A branch to a register. -/
theorem decode_branchExchange {link : Bool} {rm : Register}
    (h : (CoreInstruction.branchExchange link rm).encode c = .ok w) :
    decode w = some ⟨c, .core (.branchExchange link rm)⟩ := by
  simp only [CoreInstruction.encode, Encoding.branchExchange, bind_eq_ok, pure_eq_ok] at h
  obtain ⟨m, hm, rfl⟩ := h
  obtain rfl := Register.code_eq_ok.mp hm
  cases link <;>
    simp [decode, instruction?, registerClass, miscellaneous, isMiscellaneous, bit, register,
      Encoding.condition, flag, BitVec.extractLsb'_or]

/-- Two ranges differ if they differ in a part. -/
theorem extractLsb'_ne {s l : Nat} {v : BitVec l} (s' l' : Nat) (inside : s' + l' ≤ l)
    (part : w.extractLsb' (s + s') l' ≠ v.extractLsb' s' l') : w.extractLsb' s l ≠ v := by
  rintro rfl
  apply part
  apply BitVec.eq_of_getLsbD_eq
  intro i hi
  have within : s' + i < l := by omega
  simp [hi, within, Nat.add_assoc]

/-- A word in the place of the comparisons that set no flags. -/
theorem decode_miscellaneous (hc : w.extractLsb' 28 4 = c.bits) (registers : w.extractLsb' 25 3 = 0)
    (place : isMiscellaneous w = true) (single : bit w 7 = false) :
    decode w = (miscellaneous w).map (⟨c, .core ·⟩) := by
  simp [decode, hc, instruction?, registers, registerClass, single, place, Function.comp_def]

/-- A count of leading zeros. -/
theorem decode_countLeadingZeros {rd rm : Register}
    (h : (CoreInstruction.countLeadingZeros rd rm).encode c = .ok w) :
    decode w = some ⟨c, .core (.countLeadingZeros rd rm)⟩ := by
  simp only [CoreInstruction.encode, Encoding.countLeadingZeros, bind_eq_ok, pure_eq_ok] at h
  obtain ⟨d, hd, m, hm, hw⟩ := h
  obtain rfl := Register.code_eq_ok.mp hd
  obtain rfl := Register.code_eq_ok.mp hm
  have decoded : decode w = (miscellaneous w).map (⟨c, .core ·⟩) := by
    apply decode_miscellaneous <;> rw [← hw] <;>
      simp [isMiscellaneous, bit, Encoding.condition, BitVec.extractLsb'_or]
  -- bits 27-20 tell it from a branch to a register
  have other (x : BitVec 24) (branch : x.extractLsb' 16 8 = 0x12) : w.extractLsb' 4 24 ≠ x := by
    apply extractLsb'_ne 16 8 (by omega)
    rw [branch, ← hw]
    simp [Encoding.condition, BitVec.extractLsb'_or]
  rw [decoded, miscellaneous, if_neg (other _ rfl), if_neg (other _ rfl), if_pos, ← hw] <;>
    simp [← hw, register, Encoding.condition, BitVec.extractLsb'_or]

/-- The hint that does nothing. -/
theorem decode_nop : decode (Encoding.nop c) = some ⟨c, .core .nop⟩ := by
  cases c <;> rfl

/-- The two parts of the constant of a breakpoint, joined. -/
theorem breakpoint_parts (imm : Halfword) : imm.extractLsb' 4 12 ++ imm.extractLsb' 0 4 = imm :=
  (BitVec.extractLsb'_append_extractLsb'_eq_extractLsb' rfl).trans BitVec.extractLsb'_eq_self

/-- A breakpoint, which is issued under `AL` only. -/
theorem decode_breakpoint {imm : Halfword}
    (h : (CoreInstruction.breakpoint imm).encode c = .ok w) :
    decode w = some ⟨c, .core (.breakpoint imm)⟩ := by
  simp only [CoreInstruction.encode, requireAlways, bind_eq_ok, pure_eq_ok] at h
  obtain ⟨⟨⟩, always, hw⟩ := h
  obtain rfl := require_eq_ok.mp always
  have decoded : decode w = (miscellaneous w).map (⟨.al, .core ·⟩) := by
    apply decode_miscellaneous <;> rw [← hw] <;>
      simp [isMiscellaneous, bit, Encoding.breakpoint, BitVec.extractLsb'_or, Condition.bits]
  -- bits 7-4 tell it from the other instructions of its place
  have seven : w.extractLsb' 4 4 = 7 := by
    rw [← hw]
    simp [Encoding.breakpoint, BitVec.extractLsb'_or]
  have other {l : Nat} (x : BitVec l) (long : 4 ≤ l) (nibble : x.extractLsb' 0 4 ≠ 7) :
      w.extractLsb' 4 l ≠ x := by
    apply extractLsb'_ne 0 4 (by omega)
    rw [seven]
    exact nibble.symm
  have top : w.extractLsb' 20 12 = 0xe12 := by
    rw [← hw]
    simp [Encoding.breakpoint, BitVec.extractLsb'_or]
  have leading : w.extractLsb' 4 8 ≠ 0xf1 := other _ (by omega) (by decide)
  rw [decoded, miscellaneous, if_neg (other _ (by omega) (by decide)),
    if_neg (other _ (by omega) (by decide)), if_neg (leading ·.2), if_pos ⟨top, seven⟩]
  simp [← hw, Encoding.breakpoint, BitVec.extractLsb'_or, breakpoint_parts]

/-- An exclusive load. -/
theorem decode_loadExclusive {rt rn : Register}
    (h : (CoreInstruction.loadExclusive rt rn).encode c = .ok w) :
    decode w = some ⟨c, .core (.loadExclusive rt rn)⟩ := by
  simp only [CoreInstruction.encode, Encoding.loadExclusive, bind_eq_ok, pure_eq_ok] at h
  obtain ⟨n, hn, t, ht, rfl⟩ := h
  obtain rfl := Register.code_eq_ok.mp hn
  obtain rfl := Register.code_eq_ok.mp ht
  simp [decode, instruction?, registerClass, exclusive, bit, register, Encoding.condition,
    BitVec.extractLsb'_or]

/-- An exclusive store. -/
theorem decode_storeExclusive {rd rt rn : Register}
    (h : (CoreInstruction.storeExclusive rd rt rn).encode c = .ok w) :
    decode w = some ⟨c, .core (.storeExclusive rd rt rn)⟩ := by
  simp only [CoreInstruction.encode, Encoding.storeExclusive, bind_eq_ok, pure_eq_ok] at h
  obtain ⟨⟨⟩, -, n, hn, d, hd, t, ht, rfl⟩ := h
  obtain rfl := Register.code_eq_ok.mp hn
  obtain rfl := Register.code_eq_ok.mp hd
  obtain rfl := Register.code_eq_ok.mp ht
  simp [decode, instruction?, registerClass, exclusive, bit, register, Encoding.condition,
    BitVec.extractLsb'_or]

/-- Clearing the exclusive monitor, which is issued under `AL` only. -/
theorem decode_clearExclusive (h : CoreInstruction.clearExclusive.encode c = .ok w) :
    decode w = some ⟨c, .core .clearExclusive⟩ := by
  simp only [CoreInstruction.encode, requireAlways, bind_eq_ok, pure_eq_ok] at h
  obtain ⟨⟨⟩, always, rfl⟩ := h
  obtain rfl := require_eq_ok.mp always
  rfl

/-- A near branch with any field. -/
theorem decode_branch {link : Bool} {field : BitVec 24} :
    decode (Encoding.condition c ||| 0x0a000000 ||| flag 24 link ||| place 0 field) =
      some ⟨c, .core (.branch link ((field ++ 0#2).signExtend 32))⟩ := by
  cases link <;>
    simp [decode, instruction?, branch, bit, Encoding.condition, flag, BitVec.extractLsb'_or]

end Decode

end A32Assembler
