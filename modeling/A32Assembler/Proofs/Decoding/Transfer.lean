import A32Assembler.Proofs.Decoding.Core

/-!
# Decoding of encoded transfers

The decoder gives back a single transfer with its address: the base, the distance, the way it goes
and when the base is updated. Halfword, signed and doubleword transfers have no room for the kind of
a shift, so a register is decoded as one that is not shifted.
-/

namespace A32Assembler

/-- The distance without the kind of its shift. -/
def Displacement.unshifted : Displacement → Displacement
  | immediate m => immediate m
  | register rm _ _ => register rm .lsl 0

/-- The address without the kind of its shift. -/
def Address.unshifted (a : Address) : Address := { a with displacement := a.displacement.unshifted }

namespace Decode

open Word (place flag)

variable {c : Condition} {w x m : Word} {base rd rd2 : Register} {mode : AddressMode}

/-- The address bits of a word or byte transfer with a constant: it has twelve bits. -/
theorem encodingWord_immediate
    (h : Address.encodingWord ⟨base, .immediate m, mode⟩ = .ok x) :
    ∃ (b : BitVec 4) (o : BitVec 12), base = ⟨b.setWidth 8⟩ ∧ m = o.setWidth 32 ∧
      x = mode.bits ||| place 16 b ||| place 0 o := by
  simp only [Address.encodingWord, bind_eq_ok, pure_eq_ok] at h
  obtain ⟨⟨⟩, small, o, rfl, b, hb, rfl⟩ := h
  have small : m.toNat < 2 ^ 12 := require_eq_ok.mp small
  have whole : (m.setWidth 12).setWidth 32 = m := by
    apply BitVec.eq_of_toNat_eq
    simp only [BitVec.toNat_setWidth]
    omega
  have placed : place 0 (m.setWidth 12) = m := by rw [place, BitVec.shiftLeft_zero, whole]
  exact ⟨b, m.setWidth 12, Register.code_eq_ok.mp hb, whole.symm, by rw [placed]⟩

/-- The address bits of a halfword, signed or doubleword transfer with a constant: it has eight
bits, in two halves. -/
theorem encodingMisc_immediate
    (h : Address.encodingMisc ⟨base, .immediate m, mode⟩ = .ok x) :
    ∃ b hi lo : BitVec 4, base = ⟨b.setWidth 8⟩ ∧ m = (hi ++ lo).setWidth 32 ∧
      x = mode.bits ||| place 16 b ||| (flag 22 true ||| place 8 hi ||| place 0 lo) := by
  simp only [Address.encodingMisc, bind_eq_ok, pure_eq_ok] at h
  obtain ⟨⟨⟩, small, o, rfl, b, hb, rfl⟩ := h
  have small : m.toNat < 2 ^ 8 := require_eq_ok.mp small
  have high : m >>> 4 = (m.extractLsb' 4 4).setWidth 32 := by
    apply BitVec.eq_of_toNat_eq
    simp only [BitVec.toNat_setWidth, BitVec.extractLsb'_toNat, BitVec.toNat_ushiftRight,
      Nat.shiftRight_eq_div_pow]
    omega
  have low : m &&& 0xf = (m.extractLsb' 0 4).setWidth 32 := Word.and_low m 4
  have whole : (m.extractLsb' 4 4 ++ m.extractLsb' 0 4).setWidth 32 = m := by
    have joined : m.extractLsb' 4 4 ++ m.extractLsb' 0 4 = m.extractLsb' 0 8 :=
      BitVec.extractLsb'_append_extractLsb'_eq_extractLsb' rfl
    rw [joined]
    apply BitVec.eq_of_toNat_eq
    simp only [BitVec.toNat_setWidth, BitVec.extractLsb'_toNat, Nat.shiftRight_zero]
    omega
  refine ⟨b, m.extractLsb' 4 4, m.extractLsb' 0 4, Register.code_eq_ok.mp hb, whole.symm, ?_⟩
  rw [high, low]
  simp [place]

/-- A word or byte transfer. -/
theorem decode_transfer {load byte : Bool} {a : Address}
    (h : (CoreInstruction.transfer load byte rd a).encode c = .ok w) :
    decode w = some ⟨c, .core (.transfer load byte rd a)⟩ := by
  obtain ⟨base, displacement, indexing, down⟩ := a
  simp only [CoreInstruction.encode, Encoding.loadStore, bind_eq_ok, pure_eq_ok] at h
  obtain ⟨d, hd, x, ha, rfl⟩ := h
  obtain rfl := Register.code_eq_ok.mp hd
  cases displacement with
  | immediate m =>
    obtain ⟨b, o, rfl, rfl, rfl⟩ := encodingWord_immediate ha
    cases indexing <;>
      simp [decode, instruction?, transfer, address?, indexing?, AddressMode.bits, bit, register,
        Encoding.condition, flag, BitVec.extractLsb'_or]
  | register rm shift field =>
    simp only [Address.encodingWord, bind_eq_ok, pure_eq_ok] at ha
    obtain ⟨m, hm, o, rfl, b, hb, rfl⟩ := ha
    obtain rfl := Register.code_eq_ok.mp hm
    obtain rfl := Register.code_eq_ok.mp hb
    cases indexing <;>
      simp [decode, instruction?, transfer, address?, indexing?, AddressMode.bits, bit, register,
        Encoding.condition, flag, BitVec.extractLsb'_or]

/-- The fields of a halfword, signed or doubleword transfer. -/
theorem decode_loadStoreMisc {load : Bool} (sh : BitVec 2) (used : sh ≠ 0#2) {a : Address}
    (h : Encoding.loadStoreMisc c load (sh.setWidth 32) rd a = .ok w) :
    decode w = (transferMisc w).map (⟨c, .core ·⟩) ∧ bit w 20 = load ∧ w.extractLsb' 5 2 = sh ∧
      register w 12 = rd ∧
      address? w (if bit w 22 then .immediate ((w.extractLsb' 8 4 ++ w.extractLsb' 0 4).setWidth 32)
        else .register (register w 0) .lsl 0#5) = some a.unshifted := by
  obtain ⟨base, displacement, indexing, down⟩ := a
  simp only [Encoding.loadStoreMisc, bind_eq_ok, pure_eq_ok] at h
  obtain ⟨d, hd, x, ha, rfl⟩ := h
  obtain rfl := Register.code_eq_ok.mp hd
  have short : place 5 (sh.setWidth 32) = place 5 sh := by simp [place]
  rw [short]
  cases displacement with
  | immediate m =>
    obtain ⟨b, hi, lo, rfl, rfl, rfl⟩ := encodingMisc_immediate ha
    cases indexing <;>
      simp [used, decode, instruction?, registerClass, address?, indexing?, AddressMode.bits, bit,
        register, Address.unshifted, Displacement.unshifted, Encoding.condition, flag,
        BitVec.extractLsb'_or, Function.comp_def]
  | register rm shift field =>
    simp only [Address.encodingMisc, bind_eq_ok, pure_eq_ok] at ha
    obtain ⟨⟨⟩, -, m, hm, o, rfl, b, hb, rfl⟩ := ha
    obtain rfl := Register.code_eq_ok.mp hm
    obtain rfl := Register.code_eq_ok.mp hb
    cases indexing <;>
      simp [used, decode, instruction?, registerClass, address?, indexing?, AddressMode.bits, bit,
        register, Address.unshifted, Displacement.unshifted, Encoding.condition, flag,
        BitVec.extractLsb'_or, Function.comp_def]

/-- A transfer of a halfword or of a value that is sign-extended. -/
theorem decode_transferMisc {op : MiscTransferOp} {a : Address}
    (h : (CoreInstruction.transferMisc op rd a).encode c = .ok w) :
    decode w = some ⟨c, .core (.transferMisc op rd a.unshifted)⟩ := by
  have two : op.bits = (op.bits.extractLsb' 0 2).setWidth 32 := by cases op <;> rfl
  rw [CoreInstruction.encode, two] at h
  obtain ⟨decoded, loads, sh, dest, address⟩ :=
    decode_loadStoreMisc _ (by cases op <;> decide) h
  cases op <;>
    simp [decoded, transferMisc, loads, sh, dest, address, MiscTransferOp.isLoad,
      MiscTransferOp.bits]

/-- A transfer of a register pair: the second register follows from the first. -/
theorem decode_transferPair {load : Bool} {a : Address}
    (h : (CoreInstruction.transferPair load rd rd2 a).encode c = .ok w) :
    decode w = some ⟨c, .core (.transferPair load rd rd2 a.unshifted)⟩ := by
  simp only [CoreInstruction.encode, requirePair, bind_eq_ok] at h
  obtain ⟨⟨⟩, ⟨⟨⟩, -, second⟩, h⟩ := h
  have second : rd2 = ⟨rd.number + 1⟩ := by
    obtain ⟨number⟩ := rd2
    exact congrArg Register.mk (require_eq_ok.mp second)
  cases load with
  | true =>
    obtain ⟨decoded, loads, sh, dest, address⟩ := decode_loadStoreMisc 2 (by decide) h
    simp [decoded, transferMisc, loads, sh, dest, address, second]
  | false =>
    obtain ⟨decoded, loads, sh, dest, address⟩ := decode_loadStoreMisc 3 (by decide) h
    simp [decoded, transferMisc, loads, sh, dest, address, second]

end Decode

end A32Assembler
