import A32Assembler.Proofs.Decoding.Families

/-!
# Layouts of list, lane and table operands

The words of the instructions whose operands are counted or indexed, as the architecture draws them:
fields from the top bit down, each with the number that it should hold. What is accepted has such a
word and names registers that exist, unless it oversteps: a list of singles that ends past `S31`,
and a comparison of 64-bit lanes, which the architecture does not have.
-/

namespace A32Assembler

/-- The fields of a word from the top bit down, each with its width and the number in it. -/
abbrev Layout := List (Nat × Nat)

/-- The bits of a word below bit `top` are the fields of a layout, which end with the lowest bit. -/
def Word.Spells (w : Word) : Nat → Layout → Prop
  | top, [] => top = 0
  | top, (width, value) :: rest =>
    width ≤ top ∧ (w.extractLsb' (top - width) width).toNat = value ∧ Spells w (top - width) rest

/-- The number of a VFP register in the two parts that an instruction has for it: a field of four
bits and one bit elsewhere, which is the lowest of a single and the highest of a double. -/
def FloatRegister.parts : {p : Precision} → FloatRegister p → Nat × Nat
  | .single, s => (s.number.toNat / 2, s.number.toNat % 2)
  | .double, d => (d.number.toNat % 16, d.number.toNat / 16)

/-- The parts of a quadword register are those of its first double. -/
def QRegister.parts (q : QRegister) : Nat × Nat :=
  (2 * q.number.toNat % 16, 2 * q.number.toNat / 16)

/-- The number that names a lane of a double: the width by its lowest set bit, the index above. -/
def laneNumber (size : OperandSize) (index : Nat) : Nat :=
  (2 * index + 1) * 2 ^ size.laneBits.toNat

/-- The fields that tell operations on integer lanes apart: `U`, `opc` and `o`. -/
def LaneOp.fields : LaneOp → Nat × Nat × Nat
  | add => (0, 0b1000, 0) | sub => (1, 0b1000, 0) | mul => (0, 0b1001, 1)
  | shlSigned => (0, 0b0100, 0) | shlUnsigned => (1, 0b0100, 0) | eq => (1, 0b1000, 1)
  | geSigned => (0, 0b0011, 1) | geUnsigned => (1, 0b0011, 1)
  | gtSigned => (0, 0b0011, 0) | gtUnsigned => (1, 0b0011, 0)

/-- `cond 110 P U D W L Rn Vd 101 sz imm8`, where `imm8` counts words. -/
def blockLayout (c : Condition) (load double : Bool) (mode : BlockMode) (base : Register)
    (first : Nat × Nat) (words : Nat) : Layout :=
  [(4, c.bits.toNat), (3, 0b110), (1, mode.before.toNat), (1, mode.up.toNat), (1, first.2),
    (1, mode.writeBack.toNat), (1, load.toNat), (4, base.number.toNat), (4, first.1), (3, 0b101),
    (1, double.toNat), (8, words)]

/-- `1111 001 U 0 D size Vn Vd opc N 1 M o Vm` -/
def threeLayout (unsigned size opc o : Nat) (qd qn qm : QRegister) : Layout :=
  [(4, 0b1111), (3, 0b001), (1, unsigned), (1, 0), (1, qd.parts.2), (2, size), (4, qn.parts.1),
    (4, qd.parts.1), (4, opc), (1, qn.parts.2), (1, 1), (1, qm.parts.2), (1, o), (4, qm.parts.1)]

/-- The layout of an instruction with a list of registers or a lane. -/
def FloatInstruction.layout? (c : Condition) : FloatInstruction → Option Layout
  | transferSingles load mode base first last =>
    some (blockLayout c load false mode base first.parts
      (last.number.toNat + 1 - first.number.toNat))
  | transferDoubles load mode base first count =>
    some (blockLayout c load true mode base first.parts (2 * count))
  | moveScalar dd index rt =>
    -- `cond 1110 00 x 0 Vd Rt 1011 D 00 1 0000`
    some [(4, c.bits.toNat), (4, 0b1110), (2, 0), (1, index), (1, 0), (4, dd.parts.1),
      (4, rt.number.toNat), (4, 0b1011), (1, dd.parts.2), (2, 0), (1, 1), (4, 0)]
  | _ => none

/-- The layout of an instruction with integer lanes, one lane or a table. -/
def VectorInstruction.layout? : VectorInstruction → Option Layout
  | lanes op size qd qn qm =>
    some (threeLayout op.fields.1 size.laneBits.toNat op.fields.2.1 op.fields.2.2 qd qn qm)
  | duplicate size qd dm index =>
    -- `1111 0011 1 D 11 imm4 Vd 11000 1 M 0 Vm`
    some [(4, 0b1111), (4, 0b0011), (1, 1), (1, qd.parts.2), (2, 0b11), (4, laneNumber size index),
      (4, qd.parts.1), (5, 0b11000), (1, 1), (1, dm.parts.2), (1, 0), (4, dm.parts.1)]
  | table dd dn length dm =>
    -- `1111 0011 1 D 11 Vn Vd 10 len N 0 M 0 Vm`
    some [(4, 0b1111), (4, 0b0011), (1, 1), (1, dd.parts.2), (2, 0b11), (4, dn.parts.1),
      (4, dd.parts.1), (2, 0b10), (2, length - 1), (1, dn.parts.2), (1, 0), (1, dm.parts.2), (1, 0),
      (4, dm.parts.1)]
  | _ => none

namespace Instruction

/-- The layout of an instruction whose operands are counted or indexed. -/
def layout? (c : Condition) : Instruction → Option Layout
  | core _ => none
  | float i => i.layout? c
  | vector i => i.layout?

/-- All registers that such an instruction names exist, those in the middle of a list or a table
among them. -/
def RegistersExist : Instruction → Prop
  | float (.transferSingles _ _ base first last) =>
    base.number.toNat < 16 ∧
      ∀ n, first.number.toNat ≤ n → n ≤ last.number.toNat → n < 32
  | float (.transferDoubles _ _ base first count) =>
    base.number.toNat < 16 ∧ ∀ n, first.number.toNat ≤ n → n < first.number.toNat + count → n < 32
  | float (.moveScalar dd _ rt) => dd.number.toNat < 32 ∧ rt.number.toNat < 16
  | vector (.lanes _ _ qd qn qm) =>
    qd.number.toNat < 16 ∧ qn.number.toNat < 16 ∧ qm.number.toNat < 16
  | vector (.duplicate _ qd dm _) => qd.number.toNat < 16 ∧ dm.number.toNat < 32
  | vector (.table dd dn length dm) =>
    dd.number.toNat < 32 ∧ dm.number.toNat < 32 ∧
      ∀ n, dn.number.toNat ≤ n → n < dn.number.toNat + length → n < 32
  | _ => True

/-- The architecture has the operation for lanes of this width: 64-bit lanes can be added,
subtracted and shifted only, and single lanes are not wider than 32 bits. -/
def SizeDefined : Instruction → Prop
  | vector (.lanes op size _ _ _) =>
    size.laneBits = 3 → op ∈ [LaneOp.add, .sub, .shlSigned, .shlUnsigned]
  | vector (.duplicate size _ _ _) => size.laneBits ≠ 3
  | _ => True

/-- An operand goes out of range and nothing refuses it: a list of singles ends past `S31`, or
64-bit lanes are compared. -/
def Oversteps : Instruction → Prop
  | float (.transferSingles _ _ _ _ last) => 32 ≤ last.number.toNat
  | vector (.lanes op size _ _ _) =>
    size.laneBits = 3 ∧ op ∈ [LaneOp.eq, .geSigned, .geUnsigned, .gtSigned, .gtUnsigned]
  | _ => False

/-- The instruction names registers that exist and a lane width that its operation has, and its word
holds all its operands, each in its field. -/
structure Exact (i : Instruction) (layout : Layout) (w : Word) : Prop where
  registers : i.RegistersExist
  size : i.SizeDefined
  spelled : Word.Spells w 32 layout

end Instruction

open Word (place flag)

/-- A VFP register that has its parts exists, and they are the two parts of its number. -/
theorem FloatRegister.parts_of_split {p : Precision} {r : FloatRegister p} {s : SplitNumber}
    (h : r.split = .ok s) :
    r.number.toNat < 32 ∧ r.parts = (s.field.toNat, s.extra.toNat) := by
  unfold split at h
  split at h
  · next inside =>
    have few : r.number.toNat < 32 := inside
    refine ⟨few, ?_⟩
    cases p <;> cases h <;>
      simp only [parts, BitVec.extractLsb'_toNat, Nat.shiftRight_eq_div_pow, Prod.mk.injEq] <;>
      omega
  · cases h

/-- So do the parts of a quadword register. -/
theorem QRegister.parts_of_split {q : QRegister} {s : SplitNumber} (h : q.split = .ok s) :
    q.number.toNat < 16 ∧ q.parts = (s.field.toNat, s.extra.toNat) := by
  obtain ⟨d, low, h⟩ := bind_eq_ok.mp h
  simp only [lowDouble] at low
  split at low
  · next inside =>
    cases low
    have few : q.number.toNat < 128 := inside
    have twice : (q.number * 2).toNat = 2 * q.number.toNat := by
      rw [BitVec.toNat_mul]
      change q.number.toNat * 2 % 256 = _
      omega
    obtain ⟨inside, parts⟩ := FloatRegister.parts_of_split h
    simp only [FloatRegister.parts, twice] at inside parts
    exact ⟨by omega, parts⟩
  · cases low

/-- A core register that has a field exists, and the field is its number. -/
theorem Register.number_of_code {r : Register} {b : BitVec 4} (h : r.code = .ok b) :
    r.number.toNat < 16 ∧ b.toNat = r.number.toNat := by
  obtain rfl := code_eq_ok.mp h
  have few : b.toNat < 16 := b.isLt
  simp only [BitVec.toNat_setWidth]
  omega

section Words

variable {c : Condition} {w : Word}

/-- Block transfers. -/
theorem spells_block {load : Bool} {p : Precision} {mode : BlockMode} {base : Register}
    {first : FloatRegister p} {words : Byte} {s : SplitNumber} (split : first.split = .ok s)
    (h : Encoding.vfpBlockTransfer c load p.isDouble mode base s (place 0 words) = .ok w) :
    base.number.toNat < 16 ∧
      Word.Spells w 32 (blockLayout c load p.isDouble mode base first.parts words.toNat) := by
  obtain ⟨before, up, writeBack⟩ := mode
  simp only [Encoding.vfpBlockTransfer, bind_eq_ok, pure_eq_ok] at h
  obtain ⟨⟨⟩, -, b, hb, h⟩ := h
  obtain ⟨base_exists, base_eq⟩ := Register.number_of_code hb
  obtain ⟨-, parts⟩ := FloatRegister.parts_of_split split
  refine ⟨base_exists, ?_⟩
  simp [Word.Spells, blockLayout, parts, ← h, ← base_eq, Encoding.condition, flag, BlockMode.bits,
    BitVec.extractLsb'_or]

/-- A core register moved into one half of a double. -/
theorem exact_moveScalar {dd : DRegister} {index : Nat} {rt : Register} {layout : Layout}
    (drawn : (FloatInstruction.moveScalar dd index rt).layout? c = some layout)
    (h : (FloatInstruction.moveScalar dd index rt).encode c = .ok w) :
    (Instruction.float (.moveScalar dd index rt)).Exact layout w := by
  cases drawn
  simp only [FloatInstruction.encode, Encoding.vfpMoveScalar, bind_eq_ok, pure_eq_ok] at h
  obtain ⟨⟨⟩, few, d, hd, t, ht, h⟩ := h
  have few : index < 2 := require_eq_ok.mp few
  obtain ⟨d_exists, d_parts⟩ := FloatRegister.parts_of_split hd
  obtain ⟨t_exists, t_eq⟩ := Register.number_of_code ht
  refine ⟨⟨d_exists, t_exists⟩, trivial, ?_⟩
  simp [Word.Spells, d_parts, ← t_eq, ← h, Encoding.condition, BitVec.extractLsb'_or]
  omega

/-- Operations on three quadword registers, if the opcode keeps to its place. -/
theorem spells_three {opcode : Word} (free : opcode &&& 0x01300f10 = opcode) {qd qn qm : QRegister}
    (h : Encoding.vectorThree opcode qd qn qm = .ok w) :
    (qd.number.toNat < 16 ∧ qn.number.toNat < 16 ∧ qm.number.toNat < 16) ∧
      Word.Spells w 32 (threeLayout (opcode.extractLsb' 24 1).toNat (opcode.extractLsb' 20 2).toNat
        (opcode.extractLsb' 8 4).toNat (opcode.extractLsb' 4 1).toNat qd qn qm) := by
  simp only [Encoding.vectorThree, bind_eq_ok, pure_eq_ok] at h
  obtain ⟨d, hd, n, hn, m, hm, h⟩ := h
  obtain ⟨d_exists, d_parts⟩ := QRegister.parts_of_split hd
  obtain ⟨n_exists, n_parts⟩ := QRegister.parts_of_split hn
  obtain ⟨m_exists, m_parts⟩ := QRegister.parts_of_split hm
  have out {s l : Nat} (zero : BitVec.extractLsb' s l (0x01300f10 : Word) = 0) :
      opcode.extractLsb' s l = 0 := by
    rw [← free, BitVec.extractLsb'_and, zero]
    exact BitVec.and_zero
  refine ⟨⟨d_exists, n_exists, m_exists⟩, ?_⟩
  simp (disch := decide) [Word.Spells, threeLayout, d_parts, n_parts, m_parts, ← h, flag,
    BitVec.extractLsb'_or, out]

/-- Operations on integer lanes. -/
theorem spells_lanes {op : LaneOp} {size : OperandSize} {qd qn qm : QRegister} {layout : Layout}
    (drawn : (VectorInstruction.lanes op size qd qn qm).layout? = some layout)
    (h : (VectorInstruction.lanes op size qd qn qm).encode c = .ok w) :
    (qd.number.toNat < 16 ∧ qn.number.toNat < 16 ∧ qm.number.toNat < 16) ∧
      (op = .mul → size.laneBits ≠ 3) ∧ Word.Spells w 32 layout := by
  cases drawn
  simp only [VectorInstruction.encode, bind_eq_ok] at h
  obtain ⟨⟨⟩, narrow, ⟨⟩, -, h⟩ := h
  obtain ⟨all_exist, spelled⟩ := spells_three (by cases op <;> cases size <;> rfl) h
  have width : (op.bits ||| place 20 size.laneBits).extractLsb' 20 2 = size.laneBits := by
    cases op <;> simp [LaneOp.bits, BitVec.extractLsb'_or]
  have others : op.fields = (((op.bits ||| place 20 size.laneBits).extractLsb' 24 1).toNat,
      ((op.bits ||| place 20 size.laneBits).extractLsb' 8 4).toNat,
      ((op.bits ||| place 20 size.laneBits).extractLsb' 4 1).toNat) := by
    cases op <;> simp [LaneOp.bits, LaneOp.fields, BitVec.extractLsb'_or]
  refine ⟨all_exist, require_eq_ok.mp narrow, ?_⟩
  rw [width] at spelled
  rwa [others]

/-- The field of a lane holds its number. -/
theorem toNat_laneField {size : OperandSize} {index : Nat} {field : BitVec 4}
    (h : Encoding.laneField size index = .ok field) :
    field.toNat = laneNumber size index ∧ size.laneBits ≠ 3 := by
  have bytes : ∀ i < 8, (BitVec.ofNat 4 (2 * i + 1)).toNat = laneNumber .byte i := by decide
  have halfwords : ∀ i < 4, (BitVec.ofNat 4 (4 * i + 2)).toNat = laneNumber .halfword i := by decide
  have words : ∀ i < 2, (BitVec.ofNat 4 (8 * i + 4)).toNat = laneNumber .word i := by decide
  cases size <;> simp only [Encoding.laneField, bind_eq_ok, pure_eq_ok] at h
  case byte | unsignedByte =>
    obtain ⟨⟨⟩, few, rfl⟩ := h
    exact ⟨bytes index (require_eq_ok.mp few), by decide⟩
  case halfword | unsignedHalfword =>
    obtain ⟨⟨⟩, few, rfl⟩ := h
    exact ⟨halfwords index (require_eq_ok.mp few), by decide⟩
  case word | unsignedWord | single =>
    obtain ⟨⟨⟩, few, rfl⟩ := h
    exact ⟨words index (require_eq_ok.mp few), by decide⟩
  case wordPair | double => cases h

/-- Copies of a lane. -/
theorem exact_duplicate {size : OperandSize} {qd : QRegister} {dm : DRegister} {index : Nat}
    {layout : Layout} (drawn : (VectorInstruction.duplicate size qd dm index).layout? = some layout)
    (h : (VectorInstruction.duplicate size qd dm index).encode c = .ok w) :
    (Instruction.vector (.duplicate size qd dm index)).Exact layout w := by
  cases drawn
  simp only [VectorInstruction.encode, Encoding.vectorDuplicate, bind_eq_ok, pure_eq_ok] at h
  obtain ⟨⟨⟩, -, field, lane, d, hd, m, hm, h⟩ := h
  obtain ⟨lane_eq, narrow⟩ := toNat_laneField lane
  obtain ⟨d_exists, d_parts⟩ := QRegister.parts_of_split hd
  obtain ⟨m_exists, m_parts⟩ := FloatRegister.parts_of_split hm
  refine ⟨⟨d_exists, m_exists⟩, narrow, ?_⟩
  simp [Word.Spells, d_parts, m_parts, ← lane_eq, ← h, flag, BitVec.extractLsb'_or]

/-- Table look-ups. -/
theorem exact_table {dd dn dm : DRegister} {length : Nat} {layout : Layout}
    (drawn : (VectorInstruction.table dd dn length dm).layout? = some layout)
    (h : (VectorInstruction.table dd dn length dm).encode c = .ok w) :
    (Instruction.vector (.table dd dn length dm)).Exact layout w := by
  cases drawn
  simp only [VectorInstruction.encode, Encoding.vectorTable, bind_eq_ok, pure_eq_ok] at h
  obtain ⟨⟨⟩, -, ⟨⟩, few, ⟨⟩, ends, d, hd, n, hn, m, hm, h⟩ := h
  have few := require_eq_ok.mp few
  have ends := require_eq_ok.mp ends
  obtain ⟨d_exists, d_parts⟩ := FloatRegister.parts_of_split hd
  obtain ⟨n_exists, n_parts⟩ := FloatRegister.parts_of_split hn
  obtain ⟨m_exists, m_parts⟩ := FloatRegister.parts_of_split hm
  refine ⟨⟨d_exists, m_exists, fun k _ below ↦ by omega⟩, trivial, ?_⟩
  simp [Word.Spells, d_parts, n_parts, m_parts, ← h, BitVec.extractLsb'_or]
  omega

/-- A list of singles. -/
theorem exact_transferSingles_iff {load : Bool} {mode : BlockMode} {base : Register}
    {first last : SRegister} {layout : Layout}
    (drawn : (FloatInstruction.transferSingles load mode base first last).layout? c = some layout)
    (h : (FloatInstruction.transferSingles load mode base first last).encode c = .ok w) :
    (Instruction.float (.transferSingles load mode base first last)).Exact layout w ↔
      ¬ 32 ≤ last.number.toNat := by
  cases drawn
  simp only [FloatInstruction.encode, bind_eq_ok] at h
  obtain ⟨⟨⟩, ordered, s, split, h⟩ := h
  have ordered : first.number.toNat ≤ last.number.toNat := require_eq_ok.mp ordered
  obtain ⟨inside, -⟩ := FloatRegister.parts_of_split split
  constructor
  · intro faultless beyond
    exact absurd (faultless.registers.2 32 (by omega) beyond) (by decide)
  · intro within
    have count : (last.number - first.number).setWidth 32 + 1 =
        place 0 (last.number - first.number + 1) := by
      rw [place]
      bv_omega
    have words : (last.number - first.number + 1).toNat =
        last.number.toNat + 1 - first.number.toNat := by
      bv_omega
    rw [count] at h
    obtain ⟨base_exists, spelled⟩ := spells_block (p := .single) split h
    rw [words] at spelled
    exact ⟨⟨base_exists, fun n _ below ↦ by omega⟩, trivial, spelled⟩

/-- A list of doubles. -/
theorem exact_transferDoubles {load : Bool} {mode : BlockMode} {base : Register}
    {first : DRegister} {count : Nat} {layout : Layout}
    (drawn : (FloatInstruction.transferDoubles load mode base first count).layout? c = some layout)
    (h : (FloatInstruction.transferDoubles load mode base first count).encode c = .ok w) :
    (Instruction.float (.transferDoubles load mode base first count)).Exact layout w := by
  cases drawn
  simp only [FloatInstruction.encode, bind_eq_ok] at h
  obtain ⟨⟨⟩, few, ⟨⟩, ends, s, split, h⟩ := h
  have few := (require_eq_ok.mp few).2
  have ends := require_eq_ok.mp ends
  have place_words : BitVec.ofNat 32 (2 * count) = place 0 (BitVec.ofNat 8 (2 * count)) := by
    rw [place]
    bv_omega
  have words : (BitVec.ofNat 8 (2 * count)).toNat = 2 * count := by
    rw [BitVec.toNat_ofNat]
    omega
  rw [place_words] at h
  obtain ⟨base_exists, spelled⟩ := spells_block (p := .double) split h
  rw [words] at spelled
  exact ⟨⟨base_exists, fun n _ below ↦ by omega⟩, trivial, spelled⟩

/-- An instruction with a layout and a word is exact, unless it oversteps. -/
theorem exact_iff {i : Instruction} {layout : Layout} (drawn : i.layout? c = some layout)
    (h : i.encode c = .ok w) : i.Exact layout w ↔ ¬ i.Oversteps := by
  have always {j : Instruction} (faultless : j.Exact layout w) : j.Exact layout w ↔ ¬ False :=
    iff_of_true faultless id
  cases i with
  | core i => cases drawn
  | float i =>
    cases i with
    | transferSingles load mode base first last => exact exact_transferSingles_iff drawn h
    | transferDoubles load mode base first count => exact always (exact_transferDoubles drawn h)
    | moveScalar dd index rt => exact always (exact_moveScalar drawn h)
    | _ => cases drawn
  | vector i =>
    cases i with
    | lanes op size qd qn qm =>
      obtain ⟨all_exist, narrow, spelled⟩ := spells_lanes drawn h
      constructor
      · rintro faultless ⟨wide, compares⟩
        have defined := faultless.size wide
        cases op <;> simp at defined compares
      · intro kept
        refine ⟨all_exist, fun wide ↦ ?_, spelled⟩
        have other : op ≠ .mul := fun mul ↦ narrow mul wide
        have quiet := fun compares ↦ kept ⟨wide, compares⟩
        cases op <;> simp at other quiet ⊢
    | duplicate size qd dm index => exact always (exact_duplicate drawn h)
    | table dd dn length dm => exact always (exact_table drawn h)
    | quad | unary => cases drawn

end Words

/-- An accepted instruction whose operands are counted or indexed appends one word. It names
registers that exist and a lane width that its operation has, and the word holds all its operands,
each in its field, unless the instruction oversteps: then it does not. -/
theorem operand_fields_exact_iff {a b : Assembler} {i : Instruction} {layout : Layout}
    {answer : Answer} (drawn : i.layout? a.condition = some layout)
    (done : a.apply (.issue i) = .ok (answer, b)) :
    ∃ w, b = a.append [w] ∧ (i.Exact layout w ↔ ¬ i.Oversteps) := by
  simp only [Assembler.apply, Assembler.issue, liftMisuse_eq_ok, bind_eq_ok, pure_eq_ok,
    Prod.mk.injEq] at done
  obtain ⟨-, ⟨w, encoded, rfl⟩, -, rfl⟩ := done
  exact ⟨w, rfl, exact_iff drawn encoded⟩

/-- The last two singles are stored, and 64-bit lanes are subtracted. -/
theorem last_singles_and_wide_lanes :
    (∃ layout w, (Assembler.start (.near .full)).apply
        (.issue (.float (.transferSingles false .pushing .sp ⟨30⟩ ⟨31⟩))) =
        .ok (.nothing, (Assembler.start (.near .full)).append [w]) ∧
      (Instruction.float (.transferSingles false .pushing .sp ⟨30⟩ ⟨31⟩)).Exact layout w) ∧
    ∃ layout w, (Assembler.start (.near .full)).apply
        (.issue (.vector (.lanes .sub .wordPair ⟨0⟩ ⟨8⟩ ⟨15⟩))) =
        .ok (.nothing, (Assembler.start (.near .full)).append [w]) ∧
      (Instruction.vector (.lanes .sub .wordPair ⟨0⟩ ⟨8⟩ ⟨15⟩)).Exact layout w := by
  constructor
  · have accepted : ∃ b, (Assembler.start (.near .full)).apply
        (.issue (.float (.transferSingles false .pushing .sp ⟨30⟩ ⟨31⟩))) = .ok (.nothing, b) :=
      ⟨_, rfl⟩
    obtain ⟨b, done⟩ := accepted
    obtain ⟨w, rfl, exact_iff⟩ := operand_fields_exact_iff rfl done
    exact ⟨_, w, done, exact_iff.mpr fun beyond ↦ absurd beyond (by decide : ¬ 32 ≤ 31)⟩
  · have accepted : ∃ b, (Assembler.start (.near .full)).apply
        (.issue (.vector (.lanes .sub .wordPair ⟨0⟩ ⟨8⟩ ⟨15⟩))) = .ok (.nothing, b) := ⟨_, rfl⟩
    obtain ⟨b, done⟩ := accepted
    obtain ⟨w, rfl, exact_iff⟩ := operand_fields_exact_iff rfl done
    exact ⟨_, w, done, exact_iff.mpr fun compares ↦ absurd compares.2 (by decide)⟩

/-- What oversteps is accepted: a list of singles that ends at `S32`; one that ends at `S255`, whose
count of 256 is read as the precision bit and no words; and a comparison of 64-bit lanes. -/
theorem overstepping_is_accepted :
    ((Assembler.start (.near .full)).apply
        (.issue (.float (.transferSingles true ⟨false, true, false⟩ .r0 ⟨0⟩ ⟨32⟩))) =
        .ok (.nothing, (Assembler.start (.near .full)).append [0xec900a21]) ∧
      ¬ (Instruction.float
        (.transferSingles true ⟨false, true, false⟩ .r0 ⟨0⟩ ⟨32⟩)).RegistersExist) ∧
    (∃ w, (Assembler.start (.near .full)).apply
        (.issue (.float (.transferSingles true ⟨false, true, false⟩ .r0 ⟨0⟩ ⟨255⟩))) =
        .ok (.nothing, (Assembler.start (.near .full)).append [w]) ∧
      w.extractLsb' 8 1 = 1 ∧ w.extractLsb' 0 8 = 0) ∧
    (Assembler.start (.near .full)).apply
        (.issue (.vector (.lanes .eq .wordPair ⟨0⟩ ⟨1⟩ ⟨2⟩))) =
        .ok (.nothing, (Assembler.start (.near .full)).append [0xf3320854]) ∧
      ¬ (Instruction.vector (.lanes .eq .wordPair ⟨0⟩ ⟨1⟩ ⟨2⟩)).SizeDefined := by
  refine ⟨⟨rfl, fun exist ↦ ?_⟩, ⟨0xec900b00, rfl, by decide, by decide⟩, rfl, fun defined ↦ ?_⟩
  · exact absurd (exist.2 32 (by decide) (by decide)) (by decide)
  · exact absurd (defined rfl) (by decide)

end A32Assembler
