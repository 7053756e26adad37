import A32Assembler.Proofs.Decoding.Core

/-!
# Decoding of encoded VFP instructions

The decoder gives back the moves between core registers and singles, the conversions between
integers and doubles, and the arithmetic on two registers, from the words they are encoded as.
-/

namespace A32Assembler

open Word (place flag)

namespace FloatRegister

private theorem setWidth_low {n : Byte} (bound : n < 32) : (n.extractLsb' 0 5).setWidth 8 = n := by
  apply BitVec.eq_of_toNat_eq
  have small : n.toNat < 32 := bound
  simp only [BitVec.toNat_setWidth, BitVec.extractLsb'_toNat, Nat.shiftRight_zero]
  omega

/-- The parts of a single register number, joined. -/
theorem join_single {r : SRegister} {s : SplitNumber} (h : r.split = .ok s) :
    (⟨(s.field ++ s.extra).setWidth 8⟩ : SRegister) = r := by
  obtain ⟨n⟩ := r
  unfold split at h
  split at h
  · next bound =>
    cases h
    have whole : n.extractLsb' 1 4 ++ n.extractLsb' 0 1 = n.extractLsb' 0 5 :=
      BitVec.extractLsb'_append_extractLsb'_eq_extractLsb' rfl
    simp only [whole, setWidth_low bound]
  · cases h

/-- The parts of a double register number, joined. -/
theorem join_double {r : DRegister} {s : SplitNumber} (h : r.split = .ok s) :
    (⟨(s.extra ++ s.field).setWidth 8⟩ : DRegister) = r := by
  obtain ⟨n⟩ := r
  unfold split at h
  split at h
  · next bound =>
    cases h
    have whole : n.extractLsb' 4 1 ++ n.extractLsb' 0 4 = n.extractLsb' 0 5 :=
      BitVec.extractLsb'_append_extractLsb'_eq_extractLsb' rfl
    simp only [whole, setWidth_low bound]
  · cases h

end FloatRegister

namespace Decode

variable {c : Condition} {w : Word}

/-- A move between a core register and a single. -/
theorem decode_moveCore {toCore : Bool} {sn : SRegister} {rt : Register}
    (h : (FloatInstruction.moveCore toCore sn rt).encode c = .ok w) :
    decode w = some ⟨c, .float (.moveCore toCore sn rt)⟩ := by
  simp only [FloatInstruction.encode, Encoding.vfpMoveCore, bind_eq_ok, pure_eq_ok] at h
  obtain ⟨n, hn, t, ht, rfl⟩ := h
  obtain rfl := Register.code_eq_ok.mp ht
  obtain rfl := FloatRegister.join_single hn
  cases toCore <;>
    simp [decode, instruction?, float, floatRegister, bit, register, Encoding.condition, flag,
      BitVec.extractLsb'_or]

/-- A word with an opcode that keeps to its place is decoded as arithmetic in its precision. -/
theorem decode_vfpData {opcode : Word} (free : opcode &&& 0x00ff00c0 = opcode) {double : Bool}
    {d n m : SplitNumber} (h : w = Encoding.vfpData c opcode double d n m) :
    decode w = (floatData (if double then .double else .single) w).map (⟨c, .float ·⟩) := by
  subst h
  have out {s l : Nat} (zero : BitVec.extractLsb' s l (0x00ff00c0 : Word) = 0) :
      opcode.extractLsb' s l = 0 := by
    rw [← free, BitVec.extractLsb'_and, zero]
    exact BitVec.and_zero
  cases double <;>
    simp (disch := decide) [decode, instruction?, float, bit, Encoding.vfpData, Encoding.condition,
      flag, BitVec.extractLsb'_or, out, Function.comp_def]

/-- A division of doubles. -/
theorem decode_vdiv {d n m : DRegister}
    (h : (FloatInstruction.binary .vdiv d n m).encode c = .ok w) :
    decode w = some ⟨c, .float (.binary .vdiv d n m)⟩ := by
  simp only [FloatInstruction.encode, bind_eq_ok, pure_eq_ok] at h
  obtain ⟨n', hn, d', hd, m', hm, h⟩ := h
  rw [decode_vfpData rfl h.symm, ← FloatRegister.join_double hn, ← FloatRegister.join_double hd,
    ← FloatRegister.join_double hm, ← h]
  simp [floatData, floatRegister, bit, Encoding.vfpData, Encoding.condition, flag,
    FloatBinaryOp.bits, Precision.isDouble, BitVec.extractLsb'_or]

/-- A conversion of an integer to a double. -/
theorem decode_ofInteger {signed : Bool} {d : DRegister} {sm : SRegister}
    (h : (FloatInstruction.ofInteger signed d sm).encode c = .ok w) :
    decode w = some ⟨c, .float (.ofInteger signed d sm)⟩ := by
  simp only [FloatInstruction.encode, bind_eq_ok, pure_eq_ok] at h
  obtain ⟨d', hd, m', hm, h⟩ := h
  rw [decode_vfpData (by cases signed <;> rfl) h.symm, ← FloatRegister.join_double hd,
    ← FloatRegister.join_single hm, ← h]
  cases signed <;>
    simp [floatData, floatRegister, bit, Encoding.vfpData, Encoding.condition, flag,
      convertFromIntegerBits, SplitNumber.zero, Precision.isDouble, BitVec.extractLsb'_or]

/-- A conversion of a double to an integer. -/
theorem decode_toInteger {signed : Bool} {sd : SRegister} {m : DRegister}
    (h : (FloatInstruction.toInteger signed sd m).encode c = .ok w) :
    decode w = some ⟨c, .float (.toInteger signed sd m)⟩ := by
  simp only [FloatInstruction.encode, bind_eq_ok, pure_eq_ok] at h
  obtain ⟨d', hd, m', hm, h⟩ := h
  rw [decode_vfpData (by cases signed <;> rfl) h.symm, ← FloatRegister.join_single hd,
    ← FloatRegister.join_double hm, ← h]
  cases signed <;>
    simp [floatData, floatRegister, bit, Encoding.vfpData, Encoding.condition, flag,
      convertToIntegerBits, SplitNumber.zero, Precision.isDouble, BitVec.extractLsb'_or]

end Decode

end A32Assembler
