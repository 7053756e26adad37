import A32Assembler.Proofs.Decoding.Unique

/-!
# The field of a near branch

The 24 bits of a near branch are a signed number of words, and the stored displacement is four times
this number. So the displacements that a near branch accepts are the multiples of four in its range,
one for each field, and field and displacement are recovered from each other.
-/

namespace A32Assembler

namespace Encoding

open Word (place flag)

variable {c : Condition} {link : Bool} {offset w : Word}

/-- Shifting the field to the top and back by two bits less appends two zeros and keeps the sign. -/
theorem branchOffset_eq_signExtend (w : Word) :
    branchOffset w = (w.extractLsb' 0 24 ++ 0#2).signExtend 32 := by
  apply BitVec.eq_of_getLsbD_eq
  intro i hi
  simp only [branchOffset, BitVec.getLsbD_sshiftRight, BitVec.getLsbD_shiftLeft,
    BitVec.getLsbD_signExtend, BitVec.getLsbD_append, BitVec.getLsbD_extractLsb',
    BitVec.msb_eq_getLsbD_last]
  grind

/-- The stored displacement is the field as a signed number, times four. -/
theorem toInt_branchOffset (w : Word) :
    (branchOffset w).toInt = 4 * (w.extractLsb' 0 24).toInt := by
  rw [branchOffset_eq_signExtend, BitVec.toInt_signExtend_of_le (by decide), BitVec.toInt_append]
  simp

/-- The stored displacement is in range. -/
theorem inBranchRange_branchOffset (w : Word) : InBranchRange (branchOffset w) := by
  have low := (w.extractLsb' 0 24).le_toInt
  have high := (w.extractLsb' 0 24).toInt_lt
  rw [InBranchRange, toInt_branchOffset]
  omega

/-- The field of the stored displacement is the field that it was read from. -/
theorem extractLsb'_branchOffset (w : Word) :
    (branchOffset w).extractLsb' 2 24 = w.extractLsb' 0 24 := by
  apply BitVec.eq_of_getLsbD_eq
  intro i hi
  rw [branchOffset_eq_signExtend]
  simp only [BitVec.getLsbD_extractLsb', BitVec.getLsbD_signExtend, BitVec.getLsbD_append]
  grind

/-- A displacement is in whole words exactly if four divides it. -/
theorem aligned_iff_dvd : offset.extractLsb' 0 2 = 0#2 ↔ 4 ∣ offset.toInt := by
  rw [← BitVec.toNat_inj, BitVec.extractLsb'_toNat, BitVec.toInt_eq_toNat_cond]
  simp only [Nat.shiftRight_zero, BitVec.toNat_ofNat]
  split <;> omega

/-- The field can be read in the word of a near branch. -/
theorem extractLsb'_nearWord (field : BitVec 24) :
    (nearWord c link field).extractLsb' 0 24 = field := by
  simp [nearWord, condition, flag, BitVec.extractLsb'_or]

/-- A near branch has a word if its displacement is in range and in whole words. -/
theorem branch_eq_ok :
    branch c link offset = .ok w ↔ InBranchRange offset ∧ offset.extractLsb' 0 2 = 0#2 ∧
      nearWord c link (offset.extractLsb' 2 24) = w :=
  Decode.encode_branch

/-- A near branch is written exactly for the multiples of four in its range. -/
theorem exists_branch_iff :
    (∃ w, branch c link offset = .ok w) ↔
      4 ∣ offset.toInt ∧ -2 ^ 25 ≤ offset.toInt ∧ offset.toInt < 2 ^ 25 := by
  simp only [branch_eq_ok, exists_and_left, exists_eq', and_true, aligned_iff_dvd, InBranchRange]
  exact and_comm

/-- The displacement of a near branch is recovered from its word. -/
theorem branchOffset_of_branch (written : branch c link offset = .ok w) :
    branchOffset w = offset := by
  obtain ⟨range, aligned, rfl⟩ := branch_eq_ok.mp written
  rw [branchOffset_eq_signExtend, extractLsb'_nearWord, signExtend_field range aligned]

/-- The displacement stored in any word can be written, and gives the field that was read. -/
theorem branch_branchOffset (c : Condition) (link : Bool) (w : Word) :
    branch c link (branchOffset w) = .ok (nearWord c link (w.extractLsb' 0 24)) := by
  have aligned := aligned_iff_dvd.mpr ⟨_, toInt_branchOffset w⟩
  exact branch_eq_ok.mpr ⟨inBranchRange_branchOffset w, aligned, by rw [extractLsb'_branchOffset]⟩

end Encoding

open Encoding in
/-- A near branch is written exactly for the multiples of four from `-2 ^ 25` up to but not
including `2 ^ 25`, under every condition, with link and without, and its displacement is read back
from its word. From every word a displacement is read: its field as a signed number, times four. It
is one of those, and it has the field that it was read from, so that writing it gives the same 24
bits. -/
theorem near_field_bijective :
    (∀ (c : Condition) (link : Bool) (offset : Word), (∃ w, branch c link offset = .ok w) ↔
      4 ∣ offset.toInt ∧ -2 ^ 25 ≤ offset.toInt ∧ offset.toInt < 2 ^ 25) ∧
    (∀ (c : Condition) (link : Bool) (offset w : Word), branch c link offset = .ok w →
      branchOffset w = offset) ∧
    ∀ w : Word, (branchOffset w).toInt = 4 * (w.extractLsb' 0 24).toInt ∧
      branchField (branchOffset w) = .ok (w.extractLsb' 0 24) ∧
      ∀ (c : Condition) (link : Bool), ∃ v, branch c link (branchOffset w) = .ok v ∧
        v.extractLsb' 0 24 = w.extractLsb' 0 24 := by
  refine ⟨fun c link offset ↦ exists_branch_iff, fun c link offset w ↦ branchOffset_of_branch,
    fun w ↦ ⟨toInt_branchOffset w, ?_, fun c link ↦ ?_⟩⟩
  · rw [branchField, require_eq_ok.mpr (inBranchRange_branchOffset w)]
    exact congrArg Except.ok (extractLsb'_branchOffset w)
  · exact ⟨_, branch_branchOffset c link w, extractLsb'_nearWord _⟩

open Encoding in
/-- The farthest branch backward, and the farthest forward with link. -/
theorem farthest_fields : branch .al false (-0x2000000) = .ok 0xea800000 ∧
    branchOffset 0xea800000 = -0x2000000 ∧ branch .ne true 0x1fffffc = .ok 0x1b7fffff ∧
    branchOffset 0x1b7fffff = 0x1fffffc := by
  have backward : branch .al false (-0x2000000) = .ok 0xea800000 := rfl
  have forward : branch .ne true 0x1fffffc = .ok 0x1b7fffff := rfl
  obtain ⟨-, read, -⟩ := near_field_bijective
  exact ⟨backward, read _ _ _ _ backward, forward, read _ _ _ _ forward⟩

end A32Assembler
