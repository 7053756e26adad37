import A32Assembler.Proofs.Sequence.Effect

/-!
# Loading constants

An operand is found for a constant exactly when the constant is a rotated byte, and it stands for
the constant. So the instructions that load a constant leave exactly that constant in their register
and change nothing else.
-/

namespace A32Assembler

/-- Rotating back. -/
theorem Word.rotateRight_rotateLeft (x : Word) {n : Nat} (short : n < 32) :
    (x.rotateLeft n).rotateRight n = x := by
  apply BitVec.eq_of_getLsbD_eq
  intro i hi
  rw [BitVec.getLsbD_rotateRight, Nat.mod_eq_of_lt short]
  by_cases low : i < 32 - n
  · have there : n + i - n = i := by omega
    have kept : ¬ n + i < n := by omega
    have inside : n + i < 32 := by omega
    simp [low, hi, BitVec.getLsbD_rotateLeft, Nat.mod_eq_of_lt short, kept, inside, there]
  · have there : 32 - n + (i - (32 - n)) = i := by omega
    have wrapped : i - (32 - n) < n := by omega
    simp [low, hi, BitVec.getLsbD_rotateLeft, Nat.mod_eq_of_lt short, wrapped, there]

/-- Rotating on. -/
theorem Word.rotateLeft_rotateRight (x : Word) {n : Nat} (short : n < 32) :
    (x.rotateRight n).rotateLeft n = x := by
  apply BitVec.eq_of_getLsbD_eq
  intro i hi
  rw [BitVec.getLsbD_rotateLeft, Nat.mod_eq_of_lt short]
  by_cases low : i < n
  · have there : 32 - n + i - (32 - n) = i := by omega
    have kept : ¬ 32 - n + i < 32 - n := by omega
    have inside : 32 - n + i < 32 := by omega
    simp [low, hi, BitVec.getLsbD_rotateRight, Nat.mod_eq_of_lt short, kept, inside, there]
  · have there : n + (i - n) = i := by omega
    have wrapped : i - n < 32 - n := by omega
    simp [low, hi, BitVec.getLsbD_rotateRight, Nat.mod_eq_of_lt short, wrapped, there]

/-- A byte rotated right by an even amount. -/
def Word.IsRotatedByte (value : Word) : Prop :=
  ∃ (rotate : BitVec 4) (imm8 : Byte), (imm8.setWidth 32).rotateRight (2 * rotate.toNat) = value

namespace Operand

/-- The operand found for a constant is a constant operand that stands for it. -/
theorem exists_of_ofValue? {value : Word} {o : Operand} (found : ofValue? value = some o) :
    ∃ rotate imm8, o = immediate rotate imm8 ∧ o.immediateValue? = some value := by
  obtain ⟨n, mem, found⟩ := List.exists_of_findSome?_eq_some found
  have few := List.mem_range.mp mem
  dsimp only at found
  split at found
  · next small =>
    cases found
    refine ⟨_, _, rfl, ?_⟩
    have whole : ((value.rotateLeft (2 * n)).setWidth 8).setWidth 32 =
        value.rotateLeft (2 * n) := by
      bv_omega
    rw [immediateValue?, whole, BitVec.toNat_ofNat, Nat.mod_eq_of_lt few,
      Word.rotateRight_rotateLeft value (by omega)]
  · cases found

/-- No operand is found for a constant exactly when it is no rotated byte. -/
theorem ofValue?_eq_none {value : Word} : ofValue? value = none ↔ ¬ value.IsRotatedByte := by
  constructor
  · rintro missing ⟨rotate, imm8, rfl⟩
    have few : rotate.toNat < 16 := rotate.isLt
    have tried := List.findSome?_eq_none_iff.mp missing rotate.toNat (List.mem_range.mpr few)
    rw [Word.rotateLeft_rotateRight _ (by omega)] at tried
    have small : imm8.setWidth 32 < (256 : Word) := by bv_omega
    simp only [small, if_true, reduceCtorEq] at tried
  · intro other
    cases found : ofValue? value with
    | none => rfl
    | some o =>
      obtain ⟨rotate, imm8, rfl, stands⟩ := exists_of_ofValue? found
      exact absurd ⟨rotate, imm8, Option.some.inj stands⟩ other

/-- A constant operand is evaluated to its value. -/
theorem evaluate_of_immediateValue? {o : Operand} {value : Word}
    (h : o.immediateValue? = some value) (read : Register → Word) (carry : Bool) :
    (o.evaluate read carry).1 = value := by
  cases o <;> cases h
  rfl

end Operand

namespace Sequence

open Machine

variable {u : FloatUnit} {c : Condition} {rd : Register} {value : Word}

private theorem move_effect (op : MoveOp) {o : Operand} {x : Word} (hd : rd.number < 15)
    (found : Operand.ofValue? x = some o)
    (moves : ∀ f y z, z.1 = x → (compute op.opcode f y z).value = value) :
    (issueCore c [.move op false rd o]).HasEffect u fun s t ↦
      c.holds s.flags → t.core rd = value ∧ t.flags = s.flags ∧ s.Keeps t [rd] [] := by
  have rd_pc := Register.ne_pc hd
  obtain ⟨rotate, imm8, rfl, stands⟩ := Operand.exists_of_ofValue? found
  refine HasEffect.mono (.move op hd ⟨_, rfl⟩ rfl) ?_
  rintro s _ rfl holds
  rw [if_pos holds]
  refine ⟨?_, State.flags_put, State.keeps_put rd_pc⟩
  rw [State.core_put rd_pc, if_neg rd_pc, if_pos rfl]
  exact moves _ _ _ (Operand.evaluate_of_immediateValue? stands _ _)

private theorem moveWide_effect (hd : rd.number < 15) :
    (issueCore c (.moveWide false rd (value.extractLsb' 0 16) ::
      if value.extractLsb' 16 16 = 0 then []
      else [.moveWide true rd (value.extractLsb' 16 16)])).HasEffect u fun s t ↦
        c.holds s.flags → t.core rd = value ∧ t.flags = s.flags ∧ s.Keeps t [rd] [] := by
  have rd_pc := Register.ne_pc hd
  have low := HasEffect.moveWide (u := u) (c := c) false (value.extractLsb' 0 16) hd
  split
  · next zero =>
    refine low.mono ?_
    rintro s _ rfl holds
    rw [if_pos holds]
    refine ⟨?_, State.flags_put, State.keeps_put rd_pc⟩
    have small : value.toNat < 2 ^ 16 := by
      have none := congrArg BitVec.toNat zero
      rw [BitVec.extractLsb'_toNat] at none
      simp at none
      omega
    have whole : (value.extractLsb' 0 16).setWidth 32 = value := by
      apply BitVec.eq_of_toNat_eq
      simp
      omega
    simp [State.core_put rd_pc, rd_pc, whole]
  · have high := HasEffect.moveWide (u := u) (c := c) true (value.extractLsb' 16 16) hd
    refine low.append high ?_
    rintro s _ _ rfl rfl holds
    rw [if_pos holds, State.flags_put, if_pos holds]
    refine ⟨?_, by simp, (State.keeps_put rd_pc).trans (State.keeps_put rd_pc)⟩
    simp [State.core_put rd_pc, rd_pc, BitVec.extractLsb'_setWidth_of_le, Word.halves]

/-- Loading a constant takes two instructions at most. -/
theorem length_constant_le : (constant rd value).length ≤ 2 := by
  unfold constant
  split
  · exact Nat.le_of_ble_eq_true rfl
  split
  · exact Nat.le_of_ble_eq_true rfl
  · dsimp only
    split <;> exact Nat.le_of_ble_eq_true rfl

/-- Loading a constant leaves it in the register, and changes nothing else. -/
theorem constant_effect (hd : rd.number < 15) :
    (issueCore c (constant rd value)).HasEffect u fun s t ↦
      c.holds s.flags → t.core rd = value ∧ t.flags = s.flags ∧ s.Keeps t [rd] [] := by
  unfold constant
  split
  · next found => exact move_effect .mov hd found fun _ _ _ same ↦ same
  split
  · next found =>
    refine move_effect .mvn hd found fun _ _ z same ↦ ?_
    rw [MoveOp.opcode, value_compute_mvn, same, BitVec.not_not]
  · exact moveWide_effect hd

end Sequence

end A32Assembler
