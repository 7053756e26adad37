import A32Assembler.Proofs.Decoding.Operand

/-!
# Constants as operands

The search for a rotation goes upward and stops at the first that works. So it finds an operand for
every rotated byte and for nothing else, always the one with the least rotation, and the twelve bits
of this operand are read as the constant.
-/

namespace A32Assembler

/-- A search through the numbers below a bound has failed for all numbers below the one that it
stops at. -/
theorem exists_least_of_findSome?_range {α : Type} {n : Nat} {f : Nat → Option α} {x : α}
    (found : (List.range n).findSome? f = some x) :
    ∃ i < n, f i = some x ∧ ∀ j < i, f j = none := by
  obtain ⟨before, i, after, all, here, failed⟩ := List.findSome?_eq_some_iff.mp found
  rw [List.range_eq_range', List.range'_eq_append_iff] at all
  obtain ⟨k, few, rfl, rest⟩ := all
  obtain ⟨first, more, -⟩ := List.range'_eq_cons_iff.mp rest.symm
  refine ⟨i, by omega, here, fun j below ↦ failed j (List.mem_range'_1.mpr ?_)⟩
  omega

namespace Operand

variable {value : Word} {o : Operand}

/-- A byte stays a byte when it is rotated forth and back. -/
theorem rotateLeft_lt_of_rotated {r : Nat} {imm8 : Byte} (few : r < 16)
    (rotated : (imm8.setWidth 32).rotateRight (2 * r) = value) :
    value.rotateLeft (2 * r) < 256 := by
  rw [← rotated, Word.rotateLeft_rotateRight _ (by omega)]
  bv_omega

/-- No smaller rotation gives the constant than the one that is found. -/
theorem rotate_le_of_ofValue? {rotate : BitVec 4} {imm8 : Byte}
    (found : ofValue? value = some (.immediate rotate imm8)) (r : BitVec 4) (b : Byte)
    (rotated : (b.setWidth 32).rotateRight (2 * r.toNat) = value) : rotate ≤ r := by
  obtain ⟨n, few, here, failed⟩ := exists_least_of_findSome?_range found
  dsimp only at here
  split at here
  · obtain ⟨rfl, -⟩ := Operand.immediate.inj (Option.some.inj here)
    rw [BitVec.le_def, BitVec.toNat_ofNat, Nat.mod_eq_of_lt few]
    by_contra smaller
    have missed := failed r.toNat (by omega)
    rw [if_pos (rotateLeft_lt_of_rotated r.isLt rotated)] at missed
    cases missed
  · cases here

/-- An operand is found exactly for the rotated bytes. -/
theorem exists_ofValue?_iff : (∃ o, ofValue? value = some o) ↔ value.IsRotatedByte := by
  rw [← Option.isSome_iff_exists, ← Option.ne_none_iff_isSome, ne_eq, ofValue?_eq_none,
    Classical.not_not]

/-- A constant is accepted as what is found for it. -/
theorem ofValue_eq_ok : ofValue value = .ok o ↔ ofValue? value = some o := by
  unfold ofValue
  cases ofValue? value <;> simp

/-- A constant is refused by its value exactly if nothing is found for it. -/
theorem ofValue_eq_error {r : Refusal} :
    ofValue value = .error r ↔ r = .immediate value ∧ ¬ value.IsRotatedByte := by
  rw [← ofValue?_eq_none]
  unfold ofValue
  cases ofValue? value <;> simp [eq_comm]

/-- What is found for a constant has twelve bits that are read as the constant. -/
theorem exists_bits_of_ofValue? (found : ofValue? value = some o) :
    ∃ bits : BitVec 12, o.encoding = .ok (bits.setWidth 32) ∧
      ∀ read carry, ((Decode.operand o.isImmediate bits).evaluate read carry).1 = value := by
  have built : o.BuiltFor fun _ _ ↦ value := .constant (ofValue_eq_ok.mpr found)
  obtain ⟨rotate, imm8, rfl, -⟩ := exists_of_ofValue? found
  obtain ⟨bits, encoded⟩ := exists_encoding (o := .immediate rotate imm8) (by simp [registers])
  exact ⟨bits, encoded, built.evaluate_operand encoded⟩

end Operand

open Operand in
/-- For every constant: an operand is found exactly if the constant is a byte rotated right by an
even amount. It stands for the constant, with the least rotation of all operands that do, and so do
its twelve bits where they are read. The constant is accepted as this operand, and refused by its
value exactly if there is none. -/
theorem constant_found_canonically (value : Word) :
    ((∃ o, ofValue? value = some o) ↔ value.IsRotatedByte) ∧
    (∀ o, ofValue? value = some o →
      o.immediateValue? = some value ∧
      (∃ rotate imm8, o = .immediate rotate imm8 ∧
        ∀ (r : BitVec 4) (b : Byte), (b.setWidth 32).rotateRight (2 * r.toNat) = value →
          rotate ≤ r) ∧
      ∃ bits : BitVec 12, o.encoding = .ok (bits.setWidth 32) ∧
        ∀ read carry, ((Decode.operand o.isImmediate bits).evaluate read carry).1 = value) ∧
    (∀ o, ofValue value = .ok o ↔ ofValue? value = some o) ∧
    ∀ r, ofValue value = .error r ↔ r = .immediate value ∧ ¬ value.IsRotatedByte := by
  refine ⟨exists_ofValue?_iff, fun o found ↦ ?_, fun o ↦ ofValue_eq_ok, fun r ↦ ofValue_eq_error⟩
  obtain ⟨rotate, imm8, rfl, stands⟩ := exists_of_ofValue? found
  exact ⟨stands, ⟨rotate, imm8, rfl, rotate_le_of_ofValue? found⟩, exists_bits_of_ofValue? found⟩

open Operand in
/-- A byte that is rotated across the end of the word: `0x33` by four. -/
theorem byte_across_the_end : ofValue? 0x30000003 = some (.immediate 2 0x33) ∧
    (Operand.immediate 2 0x33).immediateValue? = some 0x30000003 ∧
    ∀ (r : BitVec 4) (b : Byte), (b.setWidth 32).rotateRight (2 * r.toNat) = 0x30000003 →
      2 ≤ r := by
  have found : ofValue? 0x30000003 = some (.immediate 2 0x33) := by decide
  obtain ⟨-, canonical, -⟩ := constant_found_canonically 0x30000003
  obtain ⟨stands, ⟨_, _, ⟨⟩, least⟩, -⟩ := canonical _ found
  exact ⟨found, stands, least⟩

end A32Assembler
