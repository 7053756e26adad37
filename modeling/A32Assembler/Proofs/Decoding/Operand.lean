import A32Assembler.Proofs.Decoding.Unique

/-!
# What operands stand for

The value that each way of building a shifter operand names, in numbers and without the encoding.
The twelve bits of the operand, read by the tables of the architecture, give the same value in every
state, so operands with the same bits stand for the same value.
-/

namespace A32Assembler

namespace Shift

/-- What a shift by any amount gives, in numbers: the product with a power of two, the quotient of
the unsigned or of the signed value, or the sum of quotient and product for what is rotated. -/
def result (s : Shift) (x : Word) (n : Nat) : Word :=
  match s with
  | lsl => BitVec.ofNat 32 (x.toNat * 2 ^ n)
  | lsr => BitVec.ofNat 32 (x.toNat / 2 ^ n)
  | asr => BitVec.ofInt 32 (x.toInt / 2 ^ n)
  | ror => BitVec.ofNat 32 (x.toNat / 2 ^ (n % 32) + x.toNat * 2 ^ (32 - n % 32))

variable {s : Shift} {x : Word} {n : Nat} {carry : Bool}

/-- A left shift multiplies. -/
theorem shiftLeft_eq_result : x <<< n = lsl.result x n := by
  apply BitVec.eq_of_toNat_eq
  rw [BitVec.toNat_shiftLeft, Nat.shiftLeft_eq, result, BitVec.toNat_ofNat]

/-- A logical right shift divides the unsigned value. -/
theorem ushiftRight_eq_result : x >>> n = lsr.result x n := by
  have small : x.toNat / 2 ^ n < 2 ^ 32 := Nat.lt_of_le_of_lt (Nat.div_le_self _ _) x.isLt
  apply BitVec.eq_of_toNat_eq
  rw [BitVec.toNat_ushiftRight, Nat.shiftRight_eq_div_pow, result, BitVec.toNat_ofNat,
    Nat.mod_eq_of_lt small]

/-- An arithmetic right shift divides the signed value, rounding down. -/
theorem sshiftRight_eq_result : x.sshiftRight n = asr.result x n := by
  rw [BitVec.sshiftRight, Int.shiftRight_eq_div_pow, result]
  rfl

/-- The two parts of a rotated word do not meet, so the word is their sum. -/
theorem rotateRight_eq_result : x.rotateRight n = ror.result x n := by
  have apart (k : Nat) : x >>> k &&& x <<< (32 - k) = 0 := by
    apply BitVec.eq_of_getLsbD_eq
    intro i hi
    by_cases low : i < 32 - k
    · simp [low]
    · have outside : 32 ≤ k + i := by omega
      simp [BitVec.getLsbD_of_ge x (k + i) outside]
  calc
    _ = x >>> (n % 32) ||| x <<< (32 - n % 32) := rfl
    _ = x >>> (n % 32) + x <<< (32 - n % 32) :=
      (BitVec.add_eq_or_of_and_eq_zero _ _ (apart _)).symm
    _ = lsr.result x (n % 32) + lsl.result x (32 - n % 32) := by
      rw [ushiftRight_eq_result, shiftLeft_eq_result]
    _ = ror.result x n := (BitVec.ofNat_add _ _).symm

/-- A shift by nothing changes nothing. -/
theorem result_zero : s.result x 0 = x := by
  cases s with
  | lsl | lsr | asr => simp [result]
  | ror => simpa [result, BitVec.toNat_eq] using x.isLt

/-- The shifter gives the result of the shift, whatever the amount. -/
theorem apply_fst : (s.apply x n carry).1 = s.result x n := by
  unfold apply
  split
  · next none => rw [none, result_zero]
  · cases s with
    | lsl => exact shiftLeft_eq_result
    | lsr => exact ushiftRight_eq_result
    | asr => exact sshiftRight_eq_result
    | ror => exact rotateRight_eq_result

end Shift

namespace Operand

/-- The operand was built to stand for a value, which may depend on the registers and the carry. -/
inductive BuiltFor : Operand → ((Register → Word) → Bool → Word) → Prop
  | constant {value : Word} {o : Operand} (built : ofValue value = .ok o) :
    BuiltFor o fun _ _ ↦ value
  | rotated {rotate imm8 : Nat} {o : Operand} (built : Operand.rotated rotate imm8 = .ok o) :
    BuiltFor o fun _ _ ↦ Shift.ror.result (BitVec.ofNat 32 imm8) (2 * rotate)
  | register (rm : Register) : BuiltFor (.register rm) fun read _ ↦ read rm
  | shifted {rm : Register} {s : Shift} {amount : Nat} {o : Operand}
    (built : shiftedRegister rm s amount = .ok o) :
    BuiltFor o fun read _ ↦ s.result (read rm) amount
  | shiftedBy (rm : Register) (s : Shift) (rs : Register) :
    BuiltFor (.shiftedBy rm s rs) fun read _ ↦ s.result (read rm) ((read rs).toNat % 256)
  | extended (rm : Register) :
    BuiltFor (.extended rm) fun read carry ↦
      BitVec.ofNat 32 (carry.toNat * 2 ^ 31 + (read rm).toNat / 2)

/-- The core registers of an operand. -/
def registers : Operand → List Register
  | immediate .. => []
  | register rm | shifted rm .. | extended rm => [rm]
  | shiftedBy rm _ rs => [rm, rs]

variable {o p : Operand} {value value' : (Register → Word) → Bool → Word}
  {read : Register → Word} {carry : Bool}

/-- What is built for a value is built. -/
theorem BuiltFor.constructible (built : o.BuiltFor value) : o.Constructible := by
  cases built with
  | constant built => exact .value built
  | rotated built => exact .rotated built
  | register rm => exact .register rm
  | shifted built => exact .shifted built
  | shiftedBy rm s rs => exact .shiftedBy rm s rs
  | extended rm => exact .extended rm

/-- The one spelling of a register stands for the same as the other. -/
theorem evaluate_plain : o.plain.evaluate read carry = o.evaluate read carry := by
  cases o with
  | shifted rm s field =>
    rw [plain]
    split
    · next none =>
      obtain ⟨rfl, rfl⟩ := none
      rfl
    · rfl
  | _ => rfl

/-- An accepted amount is the one that its field stands for. -/
theorem amount_of_accepts (s : Shift) (n : Nat) (accepts : s.Accepts n) :
    s.amount (BitVec.ofNat 5 n) = n := by
  have few : n < 33 := by
    cases s <;> simp only [Shift.Accepts] at accepts <;> omega
  have all : ∀ n < 33, s.Accepts n → s.amount (BitVec.ofNat 5 n) = n := by
    cases s <;> decide
  exact all n few accepts

/-- The carry and the bits of a word but the last, as a sum. -/
theorem rotate_through_carry {x : Word} :
    Word.place 31 (BitVec.ofBool carry) ||| x >>> 1 =
      BitVec.ofNat 32 (carry.toNat * 2 ^ 31 + x.toNat / 2) := by
  have apart : Word.place 31 (BitVec.ofBool carry) &&& x >>> 1 = 0 := by
    apply BitVec.eq_of_getLsbD_eq
    intro i hi
    by_cases top : i = 31
    · subst top
      simp
    · have below : ¬ 31 ≤ i := by omega
      simp [Word.getLsbD_place, below]
  have carried : Word.place 31 (BitVec.ofBool carry) = BitVec.ofNat 32 (carry.toNat * 2 ^ 31) := by
    cases carry <;> rfl
  rw [← BitVec.add_eq_or_of_and_eq_zero _ _ apart, carried, Shift.ushiftRight_eq_result,
    BitVec.ofNat_add]
  rfl

/-- An operand is evaluated to the value that it was built for. -/
theorem BuiltFor.evaluate_fst (built : o.BuiltFor value) :
    (o.evaluate read carry).1 = value read carry := by
  cases built with
  | @constant value o built =>
    unfold ofValue at built
    split at built
    · next found =>
      cases built
      obtain ⟨rotate, imm8, rfl, stands⟩ := exists_of_ofValue? found
      exact evaluate_of_immediateValue? stands read carry
    · cases built
  | @rotated rotate imm8 o built =>
    simp only [Operand.rotated, bind_eq_ok, pure_eq_ok] at built
    obtain ⟨⟨⟩, turns, ⟨⟩, byte, rfl⟩ := built
    have turns : rotate < 16 := require_eq_ok.mp turns
    have byte : imm8 < 256 := require_eq_ok.mp byte
    have whole : (BitVec.ofNat 8 imm8).setWidth 32 = BitVec.ofNat 32 imm8 := by bv_omega
    rw [evaluate, whole, Shift.rotateRight_eq_result, BitVec.toNat_ofNat, Nat.mod_eq_of_lt turns]
  | register rm => rfl
  | @shifted rm s amount o built =>
    simp only [shiftedRegister, Shift.amountField, bind_eq_ok, pure_eq_ok] at built
    obtain ⟨field, accepted, rfl⟩ := built
    split at accepted
    · next accepts =>
      cases accepted
      rw [evaluate, Shift.apply_fst, amount_of_accepts s amount accepts]
    · cases accepted
  | shiftedBy rm s rs =>
    rw [evaluate, Shift.apply_fst, BitVec.extractLsb'_toNat, Nat.shiftRight_zero]
  | extended rm => exact rotate_through_carry

/-- An operand whose registers exist has twelve bits. -/
theorem exists_encoding (named : ∀ r ∈ o.registers, r.number < 16) :
    ∃ bits : BitVec 12, o.encoding = .ok (bits.setWidth 32) := by
  have encoded : ∃ x, o.encoding = .ok x := by
    cases o with
    | immediate rotate imm8 => exact ⟨_, rfl⟩
    | register rm | shifted rm s field | extended rm =>
      obtain ⟨m, hm⟩ := Register.exists_code (named rm (by simp [registers]))
      exact ⟨_, by rw [encoding, hm]; rfl⟩
    | shiftedBy rm s rs =>
      obtain ⟨m, hm⟩ := Register.exists_code (named rm (by simp [registers]))
      obtain ⟨r, hr⟩ := Register.exists_code (named rs (by simp [registers]))
      exact ⟨_, by rw [encoding, hm, hr]; rfl⟩
  obtain ⟨x, encoded⟩ := encoded
  refine ⟨x.extractLsb' 0 12, encoded.trans (congrArg _ ?_)⟩
  have high : x.extractLsb' 12 20 = 0 :=
    Decode.extractLsb'_encoding encoded (by decide) (by decide)
  have whole : x.extractLsb' 12 20 ++ x.extractLsb' 0 12 = x :=
    (BitVec.extractLsb'_append_extractLsb'_eq_extractLsb' rfl).trans BitVec.extractLsb'_eq_self
  rw [high] at whole
  rw [BitVec.setWidth_eq_append (by decide)]
  exact whole.symm

/-- Twelve bits of an operand are read as its value. -/
theorem BuiltFor.evaluate_operand (built : o.BuiltFor value) {bits : BitVec 12}
    (encoded : o.encoding = .ok (bits.setWidth 32)) (read : Register → Word) (carry : Bool) :
    ((Decode.operand o.isImmediate bits).evaluate read carry).1 = value read carry := by
  have same : (bits.setWidth 32).extractLsb' 0 12 = bits := by
    rw [BitVec.extractLsb'_setWidth_of_le (by decide), BitVec.extractLsb'_eq_self]
  have decoded := Decode.operand_encoding encoded
  rw [same] at decoded
  rw [decoded, built.constructible.canonical_eq, evaluate_plain, built.evaluate_fst]

end Operand

open Operand in
/-- Every operand that can be built on existing registers has twelve bits. With the mark of a
constant they are read as the value that the operand was built for, in every state, and every other
operand with the same bits and the same mark was built for the same value. -/
theorem built_operand_denotes {o : Operand} {value : (Register → Word) → Bool → Word}
    (built : o.BuiltFor value) (named : ∀ r ∈ o.registers, r.number < 16) :
    ∃ bits : BitVec 12, o.encoding = .ok (bits.setWidth 32) ∧
      (∀ read carry,
        ((Decode.operand o.isImmediate bits).evaluate read carry).1 = value read carry) ∧
      ∀ (p : Operand) (value' : (Register → Word) → Bool → Word), p.BuiltFor value' →
        p.isImmediate = o.isImmediate → p.encoding = o.encoding → value' = value := by
  obtain ⟨bits, encoded⟩ := exists_encoding named
  refine ⟨bits, encoded, built.evaluate_operand encoded, fun p value' built' mark same ↦ ?_⟩
  funext read carry
  rw [← built.evaluate_operand encoded, ← built'.evaluate_operand (same.trans encoded), mark]

open Operand in
/-- A right shift of `LR` by the width of a word keeps its sign only, and a left shift by nothing is
written like the register and stands for the same. -/
theorem shifted_operand_denotes :
    (∃ bits : BitVec 12, (Operand.shifted .lr .asr 0).encoding = .ok (bits.setWidth 32) ∧
      ∀ read carry, ((Decode.operand false bits).evaluate read carry).1 =
        Shift.asr.result (read .lr) 32) ∧
    (fun (read : Register → Word) (_ : Bool) ↦ Shift.lsl.result (read .lr) 0) =
      fun read _ ↦ read .lr := by
  have by_word : (Operand.shifted .lr .asr 0).BuiltFor fun read _ ↦
      Shift.asr.result (read .lr) 32 := .shifted (show shiftedRegister .lr .asr 32 = .ok _ from rfl)
  have by_nothing : (Operand.shifted .lr .lsl 0).BuiltFor fun read _ ↦
      Shift.lsl.result (read .lr) 0 := .shifted (show shiftedRegister .lr .lsl 0 = .ok _ from rfl)
  obtain ⟨bits, encoded, value, -⟩ := built_operand_denotes by_word (by decide)
  obtain ⟨-, -, -, alike⟩ := built_operand_denotes (.register .lr) (by decide)
  exact ⟨⟨bits, encoded, value⟩, alike _ _ by_nothing rfl rfl⟩

end A32Assembler
