import A32Assembler.Proofs.Decoding.Transfer
import A32Assembler.Proofs.Decoding.Vfp

/-!
# Decoding of scalar floating-point words

All instructions of the VFP unit read off their words, by the tables of the extension registers:
transfers, moves to and from core registers, arithmetic, comparisons and conversions. Bit 8 is the
precision, and the decoder gives back every instruction that has a word, with its condition.
-/

namespace A32Assembler

/-- The registers that an instruction names without writing their numbers exist: the end of a list
of singles is written as a length. -/
def FloatInstruction.Named : FloatInstruction → Prop
  | transferSingles _ _ _ _ last => last.number < 32
  | _ => True

namespace Decode

open Word (place flag)

/-- The precision by bit 8. -/
def precision (w : Word) : Precision := if bit w 8 then .double else .single

/-- Moves between two core registers and a double, or two singles in a row. -/
def vfpPair (p : Precision) (w : Word) : Option FloatInstruction :=
  if bit w 22 ∧ w.extractLsb' 6 2 = 0 ∧ bit w 4 then
    some (.movePair (bit w 20) (floatRegister p w 0 5) (register w 12) (register w 16))
  else none

/-- Block transfers: the low byte counts the words of the list. -/
def vfpBlock (p : Precision) (w : Word) : FloatInstruction :=
  let mode : BlockMode := ⟨bit w 24, bit w 23, bit w 21⟩
  let words := w.extractLsb' 0 8
  match p with
  | .single =>
    let first := floatRegister .single w 12 22
    .transferSingles (bit w 20) mode (register w 16) first ⟨first.number + (words - 1)⟩
  | .double =>
    .transferDoubles (bit w 20) mode (register w 16) (floatRegister .double w 12 22)
      (words.toNat / 2)

/-- Single transfers: the low byte counts the words between the base and the address. -/
def vfpSingle (p : Precision) (w : Word) : FloatInstruction :=
  .transfer (bit w 20) (floatRegister p w 12 22)
    ⟨register w 16, .immediate ((w.extractLsb' 0 8 ++ 0#2).setWidth 32), ⟨.offset, !bit w 23⟩⟩

/-- Transfers, by the bits P, U and W. -/
def vfpTransfer (p : Precision) (w : Word) : Option FloatInstruction :=
  match bit w 24, bit w 23, bit w 21 with
  | false, false, false => vfpPair p w
  | true, _, false => some (vfpSingle p w)
  | _, _, _ => some (vfpBlock p w)

/-- Moves of one core register to or from a single, one half of a double, or the status. -/
def vfpCore (w : Word) : Option FloatInstruction :=
  if w.extractLsb' 21 3 = 0 ∧ w.extractLsb' 0 7 = 0x10 ∧ bit w 8 = false then
    some (.moveCore (bit w 20) (floatRegister .single w 16 7) (register w 12))
  else if w.extractLsb' 22 2 = 0 ∧ bit w 20 = false ∧ w.extractLsb' 0 7 = 0x10 ∧ bit w 8 then
    some (.moveScalar (floatRegister .double w 16 7) (w.extractLsb' 21 1).toNat (register w 12))
  else if w.extractLsb' 16 8 = 0xf1 ∧ w.extractLsb' 0 12 = 0xa10 then
    some (.readStatus (register w 12))
  else none

/-- Operations on one register and conversions, by bits 19-16 and 7. -/
def vfpUnary (p : Precision) (w : Word) : Option FloatInstruction :=
  let d := floatRegister p w 12 22
  let m := floatRegister p w 0 5
  match (w.extractLsb' 16 4).toNat, bit w 7 with
  | 0, false => some (.unary .vmov d m)
  | 0, true => some (.unary .vabs d m)
  | 1, false => some (.unary .vneg d m)
  | 1, true => some (.unary .vsqrt d m)
  | 4, false => some (.unary .vcmp d m)
  | 5, false => some (.compareZero d)
  | 7, true =>
    match p with
    | .single => some (.widen (floatRegister .double w 12 22) (floatRegister .single w 0 5))
    | .double => some (.narrow (floatRegister .single w 12 22) (floatRegister .double w 0 5))
  | 8, signed => some (.ofInteger signed d (floatRegister .single w 0 5))
  | 12, true => some (.toInteger false (floatRegister .single w 12 22) m)
  | 13, true => some (.toInteger true (floatRegister .single w 12 22) m)
  | _, _ => none

/-- Arithmetic, by bits 23, 21 and 20, which are all set for what has one operand, and bit 6, which
is clear for a constant. -/
def vfpArithmetic (p : Precision) (w : Word) : Option FloatInstruction :=
  match bit w 23, (w.extractLsb' 20 2).toNat, bit w 6 with
  | true, 3, true => vfpUnary p w
  | true, 3, false =>
    if w.extractLsb' 4 4 = 0 then
      some (.moveImmediate (floatRegister p w 12 22) (w.extractLsb' 16 4 ++ w.extractLsb' 0 4))
    else none
  | _, _, _ => floatData p w

/-- Every instruction of the VFP unit, which bits 11-9 name, by bits 27-25, 24 and 4. -/
def vfp (w : Word) : Option FloatInstruction :=
  if w.extractLsb' 9 3 ≠ 5 then none
  else if w.extractLsb' 25 3 = 6 then vfpTransfer (precision w) w
  else if w.extractLsb' 25 3 = 7 ∧ bit w 24 = false then
    if bit w 4 then vfpCore w else vfpArithmetic (precision w) w
  else none

variable {c : Condition} {w : Word}

/-- A VFP register is read back from its two parts. -/
theorem floatRegister_eq {p : Precision} {r : FloatRegister p} {s : SplitNumber} {lsb extra : Nat}
    (h : r.split = .ok s) (field : w.extractLsb' lsb 4 = s.field)
    (single : w.extractLsb' extra 1 = s.extra) : floatRegister p w lsb extra = r := by
  cases p with
  | single => rw [← FloatRegister.join_single h, ← field, ← single, floatRegister]
  | double => rw [← FloatRegister.join_double h, ← field, ← single, floatRegister]

/-- The precision is read back from its bit. -/
theorem precision_eq {p : Precision} (size : w.extractLsb' 8 1 = BitVec.ofBool p.isDouble) :
    precision w = p := by
  cases p <;> simp [precision, bit, size, Precision.isDouble]

/-- A transfer of the VFP unit. -/
theorem vfp_eq_vfpTransfer {p : Precision} (unit : w.extractLsb' 9 3 = 5#3)
    (kind : w.extractLsb' 25 3 = 6#3) (size : w.extractLsb' 8 1 = BitVec.ofBool p.isDouble) :
    vfp w = vfpTransfer p w := by
  simp [vfp, unit, kind, precision_eq size]

/-- What the fields of an arithmetic word of the VFP unit hold, if its opcode keeps to its place. -/
structure DataFields (w : Word) (c : Condition) (opcode : Word) (p : Precision)
    (d n m : SplitNumber) : Prop where
  condition : w.extractLsb' 28 4 = c.bits
  decoded : vfp w = vfpArithmetic p w
  d_field : w.extractLsb' 12 4 = d.field
  d_extra : w.extractLsb' 22 1 = d.extra
  m_field : w.extractLsb' 0 4 = m.field
  m_extra : w.extractLsb' 5 1 = m.extra
  n_field : w.extractLsb' 16 4 = opcode.extractLsb' 16 4 ||| n.field
  n_extra : w.extractLsb' 7 1 = opcode.extractLsb' 7 1 ||| n.extra
  opc_23 : w.extractLsb' 23 1 = opcode.extractLsb' 23 1
  opc_20 : w.extractLsb' 20 2 = opcode.extractLsb' 20 2
  opc_6 : w.extractLsb' 6 1 = opcode.extractLsb' 6 1

/-- The word of a VFP data operation shows its registers, and its opcode around them, provided that
the opcode leaves the places of two of them free. -/
theorem dataFields {opcode : Word} (free : opcode &&& 0x00bf00c0 = opcode) {p : Precision}
    {d n m : SplitNumber} (h : Encoding.vfpData c opcode p.isDouble d n m = w) :
    DataFields w c opcode p d n m := by
  subst h
  have out {s l : Nat} (zero : BitVec.extractLsb' s l (0x00bf00c0 : Word) = 0) :
      opcode.extractLsb' s l = 0 := by
    rw [← free, BitVec.extractLsb'_and, zero]
    exact BitVec.and_zero
  constructor
  case decoded =>
    cases p <;> simp (disch := decide) [vfp, precision, bit, Encoding.vfpData, Encoding.condition,
      flag, Precision.isDouble, BitVec.extractLsb'_or, out]
  all_goals
    simp (disch := decide) [Encoding.vfpData, Encoding.condition, flag, BitVec.extractLsb'_or, out]

/-- Operations on two registers. -/
theorem vfp_binary {op : FloatBinaryOp} {p : Precision} {d n m : FloatRegister p}
    (h : (FloatInstruction.binary op d n m).encode c = .ok w) :
    w.extractLsb' 28 4 = c.bits ∧ vfp w = some (.binary op d n m) := by
  simp only [FloatInstruction.encode, bind_eq_ok, pure_eq_ok] at h
  obtain ⟨n', hn, d', hd, m', hm, h⟩ := h
  have fields := dataFields (by cases op <;> rfl) h
  refine ⟨fields.condition, fields.decoded.trans ?_⟩
  have d_eq := floatRegister_eq hd fields.d_field fields.d_extra
  have m_eq := floatRegister_eq hm fields.m_field fields.m_extra
  have n_eq : floatRegister p w 16 7 = n := by
    apply floatRegister_eq hn
    · rw [fields.n_field]; cases op <;> exact BitVec.zero_or
    · rw [fields.n_extra]; cases op <;> exact BitVec.zero_or
  cases op <;>
    simp [vfpArithmetic, floatData, d_eq, m_eq, n_eq, fields.opc_23, fields.opc_20, fields.opc_6,
      FloatBinaryOp.bits, bit]

/-- Operations on one register. -/
theorem vfp_unary {op : FloatUnaryOp} {p : Precision} {d m : FloatRegister p}
    (h : (FloatInstruction.unary op d m).encode c = .ok w) :
    w.extractLsb' 28 4 = c.bits ∧ vfp w = some (.unary op d m) := by
  simp only [FloatInstruction.encode, bind_eq_ok, pure_eq_ok] at h
  obtain ⟨d', hd, m', hm, h⟩ := h
  have fields := dataFields (by cases op <;> rfl) h
  refine ⟨fields.condition, fields.decoded.trans ?_⟩
  have d_eq := floatRegister_eq hd fields.d_field fields.d_extra
  have m_eq := floatRegister_eq hm fields.m_field fields.m_extra
  cases op <;>
    simp [vfpArithmetic, vfpUnary, d_eq, m_eq, fields.opc_23, fields.opc_20, fields.opc_6,
      fields.n_field, fields.n_extra, FloatUnaryOp.bits, bit, SplitNumber.zero]

/-- Comparisons with zero. -/
theorem vfp_compareZero {p : Precision} {d : FloatRegister p}
    (h : (FloatInstruction.compareZero d).encode c = .ok w) :
    w.extractLsb' 28 4 = c.bits ∧ vfp w = some (.compareZero d) := by
  simp only [FloatInstruction.encode, bind_eq_ok, pure_eq_ok] at h
  obtain ⟨d', hd, h⟩ := h
  have fields := dataFields rfl h
  refine ⟨fields.condition, fields.decoded.trans ?_⟩
  have d_eq := floatRegister_eq hd fields.d_field fields.d_extra
  simp [vfpArithmetic, vfpUnary, d_eq, fields.opc_23, fields.opc_20, fields.opc_6,
    fields.n_field, fields.n_extra, compareZeroBits, bit, SplitNumber.zero]

/-- Changes from double to single precision. -/
theorem vfp_narrow {sd : SRegister} {dm : DRegister}
    (h : (FloatInstruction.narrow sd dm).encode c = .ok w) :
    w.extractLsb' 28 4 = c.bits ∧ vfp w = some (.narrow sd dm) := by
  simp only [FloatInstruction.encode, bind_eq_ok, pure_eq_ok] at h
  obtain ⟨d', hd, m', hm, h⟩ := h
  have fields := dataFields (p := .double) rfl h
  refine ⟨fields.condition, fields.decoded.trans ?_⟩
  have d_eq := floatRegister_eq hd fields.d_field fields.d_extra
  have m_eq := floatRegister_eq hm fields.m_field fields.m_extra
  simp [vfpArithmetic, vfpUnary, d_eq, m_eq, fields.opc_23, fields.opc_20, fields.opc_6,
    fields.n_field, fields.n_extra, convertPrecisionBits, bit, SplitNumber.zero]

/-- Changes from single to double precision. -/
theorem vfp_widen {dd : DRegister} {sm : SRegister}
    (h : (FloatInstruction.widen dd sm).encode c = .ok w) :
    w.extractLsb' 28 4 = c.bits ∧ vfp w = some (.widen dd sm) := by
  simp only [FloatInstruction.encode, bind_eq_ok, pure_eq_ok] at h
  obtain ⟨d', hd, m', hm, h⟩ := h
  have fields := dataFields (p := .single) rfl h
  refine ⟨fields.condition, fields.decoded.trans ?_⟩
  have d_eq := floatRegister_eq hd fields.d_field fields.d_extra
  have m_eq := floatRegister_eq hm fields.m_field fields.m_extra
  simp [vfpArithmetic, vfpUnary, d_eq, m_eq, fields.opc_23, fields.opc_20, fields.opc_6,
    fields.n_field, fields.n_extra, convertPrecisionBits, bit, SplitNumber.zero]

/-- Conversions to integers. -/
theorem vfp_toInteger {signed : Bool} {sd : SRegister} {p : Precision} {m : FloatRegister p}
    (h : (FloatInstruction.toInteger signed sd m).encode c = .ok w) :
    w.extractLsb' 28 4 = c.bits ∧ vfp w = some (.toInteger signed sd m) := by
  simp only [FloatInstruction.encode, bind_eq_ok, pure_eq_ok] at h
  obtain ⟨d', hd, m', hm, h⟩ := h
  have fields := dataFields (by cases signed <;> rfl) h
  refine ⟨fields.condition, fields.decoded.trans ?_⟩
  have d_eq := floatRegister_eq hd fields.d_field fields.d_extra
  have m_eq := floatRegister_eq hm fields.m_field fields.m_extra
  cases signed <;>
    simp [vfpArithmetic, vfpUnary, d_eq, m_eq, fields.opc_23, fields.opc_20, fields.opc_6,
      fields.n_field, fields.n_extra, convertToIntegerBits, bit, SplitNumber.zero]

/-- Conversions of integers. -/
theorem vfp_ofInteger {signed : Bool} {p : Precision} {d : FloatRegister p} {sm : SRegister}
    (h : (FloatInstruction.ofInteger signed d sm).encode c = .ok w) :
    w.extractLsb' 28 4 = c.bits ∧ vfp w = some (.ofInteger signed d sm) := by
  simp only [FloatInstruction.encode, bind_eq_ok, pure_eq_ok] at h
  obtain ⟨d', hd, m', hm, h⟩ := h
  have fields := dataFields (by cases signed <;> rfl) h
  refine ⟨fields.condition, fields.decoded.trans ?_⟩
  have d_eq := floatRegister_eq hd fields.d_field fields.d_extra
  have m_eq := floatRegister_eq hm fields.m_field fields.m_extra
  cases signed <;>
    simp [vfpArithmetic, vfpUnary, d_eq, m_eq, fields.opc_23, fields.opc_20, fields.opc_6,
      fields.n_field, fields.n_extra, convertFromIntegerBits, bit, SplitNumber.zero]

/-- Moves of constants. -/
theorem vfp_moveImmediate {p : Precision} {d : FloatRegister p} {imm8 : Byte}
    (h : (FloatInstruction.moveImmediate d imm8).encode c = .ok w) :
    w.extractLsb' 28 4 = c.bits ∧ vfp w = some (.moveImmediate d imm8) := by
  simp only [FloatInstruction.encode, bind_eq_ok, pure_eq_ok] at h
  obtain ⟨d', hd, rfl⟩ := h
  have d_eq : floatRegister p (Encoding.vfpMoveImmediate c p.isDouble d' imm8) 12 22 = d := by
    apply floatRegister_eq hd <;>
      simp [Encoding.vfpMoveImmediate, Encoding.condition, flag, BitVec.extractLsb'_or]
  have whole : imm8.extractLsb' 4 4 ++ imm8.extractLsb' 0 4 = imm8 :=
    (BitVec.extractLsb'_append_extractLsb'_eq_extractLsb' rfl).trans BitVec.extractLsb'_eq_self
  constructor
  · simp [Encoding.vfpMoveImmediate, Encoding.condition, flag, BitVec.extractLsb'_or]
  · have decoded : vfp (Encoding.vfpMoveImmediate c p.isDouble d' imm8) =
        vfpArithmetic p (Encoding.vfpMoveImmediate c p.isDouble d' imm8) := by
      cases p <;>
        simp [vfp, precision, bit, Encoding.vfpMoveImmediate, Encoding.condition, flag,
          Precision.isDouble, BitVec.extractLsb'_or]
    rw [decoded, vfpArithmetic, d_eq]
    simp [bit, Encoding.vfpMoveImmediate, Encoding.condition, flag, BitVec.extractLsb'_or, whole]

/-- Moves between a core register and a single. -/
theorem vfp_moveCore {toCore : Bool} {sn : SRegister} {rt : Register}
    (h : (FloatInstruction.moveCore toCore sn rt).encode c = .ok w) :
    w.extractLsb' 28 4 = c.bits ∧ vfp w = some (.moveCore toCore sn rt) := by
  simp only [FloatInstruction.encode, Encoding.vfpMoveCore, bind_eq_ok, pure_eq_ok] at h
  obtain ⟨n, hn, t, ht, rfl⟩ := h
  obtain rfl := Register.code_eq_ok.mp ht
  obtain rfl := FloatRegister.join_single hn
  cases toCore <;>
    simp [vfp, vfpCore, floatRegister, bit, register, Encoding.condition, flag,
      BitVec.extractLsb'_or]

/-- Moves between two core registers and VFP registers. -/
theorem vfp_movePair {toCore : Bool} {p : Precision} {m : FloatRegister p} {rt rt2 : Register}
    (h : (FloatInstruction.movePair toCore m rt rt2).encode c = .ok w) :
    w.extractLsb' 28 4 = c.bits ∧ vfp w = some (.movePair toCore m rt rt2) := by
  simp only [FloatInstruction.encode, Encoding.vfpMovePair, bind_eq_ok, pure_eq_ok] at h
  obtain ⟨⟨⟩, -, m', hm, t2, ht2, t, ht, h⟩ := h
  obtain rfl := Register.code_eq_ok.mp ht
  obtain rfl := Register.code_eq_ok.mp ht2
  have m_eq : floatRegister p w 0 5 = m := by
    apply floatRegister_eq hm <;>
      simp [← h, Encoding.condition, flag, BitVec.extractLsb'_or]
  have decoded : vfp w = vfpTransfer p w := by
    apply vfp_eq_vfpTransfer <;>
      simp [← h, Encoding.condition, flag, BitVec.extractLsb'_or]
  rw [decoded, vfpTransfer, vfpPair, m_eq]
  cases toCore <;>
    simp [← h, bit, register, Encoding.condition, flag, BitVec.extractLsb'_or]

/-- Moves into one half of a double. -/
theorem vfp_moveScalar {dd : DRegister} {index : Nat} {rt : Register}
    (h : (FloatInstruction.moveScalar dd index rt).encode c = .ok w) :
    w.extractLsb' 28 4 = c.bits ∧ vfp w = some (.moveScalar dd index rt) := by
  simp only [FloatInstruction.encode, Encoding.vfpMoveScalar, bind_eq_ok, pure_eq_ok] at h
  obtain ⟨⟨⟩, half, d, hd, t, ht, rfl⟩ := h
  have half : index < 2 := require_eq_ok.mp half
  obtain rfl := Register.code_eq_ok.mp ht
  obtain rfl := FloatRegister.join_double hd
  constructor
  · simp [Encoding.condition, BitVec.extractLsb'_or]
  · obtain rfl | rfl : index = 0 ∨ index = 1 := by omega
    all_goals
      simp [vfp, vfpCore, floatRegister, bit, register, Encoding.condition, BitVec.extractLsb'_or]

/-- Reading the status. -/
theorem vfp_readStatus {rt : Register}
    (h : (FloatInstruction.readStatus rt).encode c = .ok w) :
    w.extractLsb' 28 4 = c.bits ∧ vfp w = some (.readStatus rt) := by
  simp only [FloatInstruction.encode, Encoding.vfpReadStatus, bind_eq_ok, pure_eq_ok] at h
  obtain ⟨t, ht, rfl⟩ := h
  obtain rfl := Register.code_eq_ok.mp ht
  simp [vfp, vfpCore, bit, register, Encoding.condition, BitVec.extractLsb'_or]

/-- The address bits of a VFP transfer: the distance has eight bits and is in whole words. -/
theorem encodingVfp_eq_ok {a : Address} {x : Word} (h : a.encodingVfp = .ok x) :
    ∃ (b : BitVec 4) (imm8 : Byte) (down : Bool),
      a = ⟨⟨b.setWidth 8⟩, .immediate ((imm8 ++ 0#2).setWidth 32), ⟨.offset, down⟩⟩ ∧
        x = flag 23 (!down) ||| place 16 b ||| place 0 imm8 := by
  obtain ⟨base, displacement, indexing, down⟩ := a
  obtain ⟨⟨⟩, offset, h⟩ := bind_eq_ok.mp h
  obtain rfl : indexing = .offset := require_eq_ok.mp offset
  cases displacement with
  | register rm shift field => cases h
  | immediate m =>
    simp only [bind_eq_ok, pure_eq_ok] at h
    obtain ⟨m, rfl, ⟨⟩, aligned, ⟨⟩, few, b, hb, rfl⟩ := h
    have aligned : m.toNat % 4 = 0 := by
      simpa using congrArg BitVec.toNat (require_eq_ok.mp aligned)
    have few : m.toNat < 1024 := require_eq_ok.mp few
    have whole : ((m >>> 2).setWidth 8 ++ 0#2).setWidth 32 = m := by
      apply BitVec.eq_of_toNat_eq
      simp only [BitVec.toNat_setWidth, BitVec.toNat_append, BitVec.toNat_ushiftRight,
        BitVec.toNat_ofNat, Nat.zero_mod, Nat.or_zero]
      rw [Nat.shiftRight_eq_div_pow, Nat.shiftLeft_eq]
      omega
    have short : place 0 ((m >>> 2).setWidth 8) = place 0 (m >>> 2) := by
      apply BitVec.eq_of_toNat_eq
      simp only [place, BitVec.shiftLeft_zero, BitVec.toNat_setWidth, BitVec.toNat_ushiftRight,
        Nat.shiftRight_eq_div_pow]
      omega
    exact ⟨b, (m >>> 2).setWidth 8, down,
      by rw [whole, Register.code_eq_ok.mp hb], by rw [short]⟩

/-- Single transfers. -/
theorem vfp_transfer {load : Bool} {p : Precision} {d : FloatRegister p} {a : Address}
    (h : (FloatInstruction.transfer load d a).encode c = .ok w) :
    w.extractLsb' 28 4 = c.bits ∧ vfp w = some (.transfer load d a) := by
  simp only [FloatInstruction.encode, Encoding.vfpLoadStore, bind_eq_ok, pure_eq_ok] at h
  obtain ⟨d', hd, x, address, h⟩ := h
  obtain ⟨b, imm8, down, rfl, rfl⟩ := encodingVfp_eq_ok address
  have d_eq : floatRegister p w 12 22 = d := by
    apply floatRegister_eq hd <;>
      simp [← h, Encoding.condition, flag, BitVec.extractLsb'_or]
  have decoded : vfp w = vfpTransfer p w := by
    apply vfp_eq_vfpTransfer <;>
      simp [← h, Encoding.condition, flag, BitVec.extractLsb'_or]
  rw [decoded, vfpTransfer, vfpSingle, d_eq]
  cases load <;> cases down <;>
    simp [← h, bit, register, Encoding.condition, flag, BitVec.extractLsb'_or]

/-- The fields of a block transfer of the VFP unit. -/
structure BlockFields (w : Word) (c : Condition) (load : Bool) {p : Precision} (mode : BlockMode)
    (base : Register) (first : FloatRegister p) (words : Byte) : Prop where
  condition : w.extractLsb' 28 4 = c.bits
  decoded : vfp w = some (vfpBlock p w)
  load : bit w 20 = load
  mode : (⟨bit w 24, bit w 23, bit w 21⟩ : BlockMode) = mode
  base : register w 16 = base
  first : floatRegister p w 12 22 = first
  words : w.extractLsb' 0 8 = words

/-- The word of a block transfer shows what it was made of. -/
theorem blockFields {load : Bool} {p : Precision} {mode : BlockMode} {base : Register}
    {first : FloatRegister p} {words : Byte} {s : SplitNumber} (split : first.split = .ok s)
    (h : Encoding.vfpBlockTransfer c load p.isDouble mode base s (place 0 words) = .ok w) :
    BlockFields w c load mode base first words := by
  obtain ⟨before, up, writeBack⟩ := mode
  simp only [Encoding.vfpBlockTransfer, bind_eq_ok, pure_eq_ok] at h
  obtain ⟨⟨⟩, serves, b, hb, h⟩ := h
  have serves := require_eq_ok.mp serves
  obtain rfl := Register.code_eq_ok.mp hb
  have transfer : vfp w = vfpTransfer p w := by
    apply vfp_eq_vfpTransfer <;>
      simp [← h, Encoding.condition, flag, BlockMode.bits, BitVec.extractLsb'_or]
  constructor
  case first =>
    apply floatRegister_eq split <;>
      simp [← h, Encoding.condition, flag, BlockMode.bits, BitVec.extractLsb'_or]
  case decoded =>
    rw [transfer, vfpTransfer]
    obtain ⟨rfl, rfl⟩ | pushing := serves
    · simp [← h, bit, Encoding.condition, flag, BlockMode.bits, BitVec.extractLsb'_or]
    · cases pushing
      simp [← h, bit, Encoding.condition, flag, BlockMode.bits, BitVec.extractLsb'_or]
  all_goals
    simp [← h, bit, register, Encoding.condition, flag, BlockMode.bits, BitVec.extractLsb'_or]

/-- Block transfers of singles. -/
theorem vfp_transferSingles {load : Bool} {mode : BlockMode} {base : Register}
    {first last : SRegister} (named : last.number < 32)
    (h : (FloatInstruction.transferSingles load mode base first last).encode c = .ok w) :
    w.extractLsb' 28 4 = c.bits ∧ vfp w = some (.transferSingles load mode base first last) := by
  simp only [FloatInstruction.encode, bind_eq_ok] at h
  obtain ⟨⟨⟩, ordered, s, split, h⟩ := h
  have ordered : first.number ≤ last.number := require_eq_ok.mp ordered
  have count : (last.number - first.number).setWidth 32 + 1 =
      place 0 (last.number - first.number + 1) := by
    rw [place]
    bv_omega
  rw [count] at h
  have fields := blockFields (p := .single) split h
  have ends : first.number + (last.number - first.number + 1 - 1) = last.number := by
    bv_omega
  refine ⟨fields.condition, ?_⟩
  simp only [fields.decoded, vfpBlock, fields.load, fields.mode, fields.base, fields.first,
    fields.words, ends]

/-- Block transfers of doubles. -/
theorem vfp_transferDoubles {load : Bool} {mode : BlockMode} {base : Register}
    {first : DRegister} {count : Nat}
    (h : (FloatInstruction.transferDoubles load mode base first count).encode c = .ok w) :
    w.extractLsb' 28 4 = c.bits ∧ vfp w = some (.transferDoubles load mode base first count) := by
  simp only [FloatInstruction.encode, bind_eq_ok] at h
  obtain ⟨⟨⟩, few, ⟨⟩, -, s, split, h⟩ := h
  have few := (require_eq_ok.mp few).2
  have words : BitVec.ofNat 32 (2 * count) = place 0 (BitVec.ofNat 8 (2 * count)) := by
    rw [place]
    bv_omega
  rw [words] at h
  have fields := blockFields (p := .double) split h
  have half : (BitVec.ofNat 8 (2 * count)).toNat / 2 = count := by
    rw [BitVec.toNat_ofNat]
    omega
  refine ⟨fields.condition, ?_⟩
  simp only [fields.decoded, vfpBlock, fields.load, fields.mode, fields.base, fields.first,
    fields.words, half]

/-- Every instruction of the VFP unit is read back from its word, with its condition. -/
theorem vfp_encode {i : FloatInstruction} (named : i.Named) (h : i.encode c = .ok w) :
    w.extractLsb' 28 4 = c.bits ∧ vfp w = some i := by
  cases i with
  | moveCore toCore sn rt => exact vfp_moveCore h
  | movePair toCore m rt rt2 => exact vfp_movePair h
  | moveScalar dd index rt => exact vfp_moveScalar h
  | moveImmediate d imm8 => exact vfp_moveImmediate h
  | transfer load d a => exact vfp_transfer h
  | transferSingles load mode base first last => exact vfp_transferSingles named h
  | transferDoubles load mode base first count => exact vfp_transferDoubles h
  | binary op d n m => exact vfp_binary h
  | unary op d m => exact vfp_unary h
  | compareZero d => exact vfp_compareZero h
  | readStatus rt => exact vfp_readStatus h
  | narrow sd dm => exact vfp_narrow h
  | widen dd sm => exact vfp_widen h
  | toInteger signed sd m => exact vfp_toInteger h
  | ofInteger signed d sm => exact vfp_ofInteger h

end Decode

end A32Assembler
