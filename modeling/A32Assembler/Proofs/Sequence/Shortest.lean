import A32Assembler.Proofs.Float.Unit
import A32Assembler.Proofs.Sequence.Constant
import A32Assembler.Proofs.Sequence.Expansion

/-!
# The shortest code for a constant

A constant takes one instruction exactly if there is one that moves it into its register, and two
instructions otherwise. The single instructions are those with a rotated byte, with the complement
of a rotated byte, and the wide move of a value that fits into the lower half of a word.
-/

namespace A32Assembler

open Machine

/-- The instructions that move one constant into `rd`. -/
inductive CoreInstruction.MovesConstant (rd : Register) : CoreInstruction → Prop
  | mov (rotate : BitVec 4) (imm8 : Byte) :
    MovesConstant rd (.move .mov false rd (.immediate rotate imm8))
  | mvn (rotate : BitVec 4) (imm8 : Byte) :
    MovesConstant rd (.move .mvn false rd (.immediate rotate imm8))
  | movw (imm : Halfword) : MovesConstant rd (.moveWide false rd imm)

/-- The values that one instruction can move: rotated bytes, their complements and the values of
sixteen bits. -/
def Word.MovesAtOnce (value : Word) : Prop :=
  value.IsRotatedByte ∨ (~~~value).IsRotatedByte ∨ value < 0x10000

namespace Sequence

variable {rd : Register} {value : Word}

/-- A wide move of a half leaves any value of sixteen bits. -/
theorem exists_setWidth_iff : (∃ imm : Halfword, imm.setWidth 32 = value) ↔ value < 0x10000 := by
  constructor
  · rintro ⟨imm, rfl⟩
    bv_omega
  · intro small
    exact ⟨value.setWidth 16, by bv_omega⟩

/-- The upper half of a value is empty exactly if it has sixteen bits. -/
theorem high_eq_zero_iff : value.extractLsb' 16 16 = 0 ↔ value < 0x10000 := by
  have bound := value.isLt
  constructor
  · intro none
    have none := congrArg BitVec.toNat none
    simp only [BitVec.extractLsb'_toNat, Nat.shiftRight_eq_div_pow] at none
    bv_omega
  · intro small
    have small : value.toNat < 0x10000 := small
    apply BitVec.eq_of_toNat_eq
    simp only [BitVec.extractLsb'_toNat, Nat.shiftRight_eq_div_pow]
    bv_omega

/-- A constant takes one instruction if it can be moved at once. -/
theorem length_constant_of_movesAtOnce (once : value.MovesAtOnce) :
    (constant rd value).length = 1 := by
  unfold constant
  split
  · rfl
  next none =>
  split
  · rfl
  next none' =>
  have small : value < 0x10000 := by
    rcases once with rotated | rotated | small
    · exact absurd rotated (Operand.ofValue?_eq_none.mp none)
    · exact absurd rotated (Operand.ofValue?_eq_none.mp none')
    · exact small
  simp [high_eq_zero_iff.mpr small]

/-- A constant takes two instructions otherwise. -/
theorem length_constant_of_not_movesAtOnce (never : ¬ value.MovesAtOnce) :
    (constant rd value).length = 2 := by
  obtain ⟨unrotated, unrotated', large⟩ := by simpa only [Word.MovesAtOnce, not_or] using never
  have used : value.extractLsb' 16 16 ≠ 0 := fun empty ↦ large (high_eq_zero_iff.mp empty)
  simp only [constant, Operand.ofValue?_eq_none.mpr unrotated,
    Operand.ofValue?_eq_none.mpr unrotated', if_neg used, List.length_cons, List.length_nil]

end Sequence

/-- The values that one instruction can move are those that some instruction moves in all states. -/
theorem Word.movesAtOnce_iff {rd : Register} (hd : rd.number < 15) {value : Word} :
    value.MovesAtOnce ↔
      ∃ i : CoreInstruction, i.MovesConstant rd ∧
        ∀ s, ∃ t, i.execute s = some t ∧ t.core rd = value := by
  have rd_pc := Register.ne_pc hd
  have other : .pc ∉ [rd] := by simpa using rd_pc.symm
  constructor
  · rintro (⟨rotate, imm8, rfl⟩ | ⟨rotate, imm8, complement⟩ | small)
    · refine ⟨_, .mov rotate imm8, fun s ↦ ⟨_, rfl, ?_⟩⟩
      simp [State.core_put rd_pc, rd_pc, State.process, MoveOp.opcode, Operand.evaluate]
    · refine ⟨_, .mvn rotate imm8, fun s ↦ ⟨_, rfl, ?_⟩⟩
      simp [State.core_put rd_pc, rd_pc, State.process, MoveOp.opcode, Operand.evaluate, complement]
    · obtain ⟨imm, rfl⟩ := Sequence.exists_setWidth_iff.mpr small
      refine ⟨_, .movw imm, fun s ↦ ⟨_, if_neg other, ?_⟩⟩
      simp [State.core_put rd_pc, rd_pc]
  · rintro ⟨i, moves, loads⟩
    let s : State :=
      { core := fun _ ↦ 0, flags := ⟨false, false, false, false⟩
        double := fun _ ↦ 0, memory := fun _ ↦ none }
    obtain ⟨t, executed, rfl⟩ := loads s
    cases moves with
    | mov rotate imm8 =>
      cases executed
      refine .inl ⟨rotate, imm8, ?_⟩
      simp [State.core_put rd_pc, rd_pc, State.process, MoveOp.opcode, Operand.evaluate]
    | mvn rotate imm8 =>
      cases executed
      refine .inr (.inl ⟨rotate, imm8, ?_⟩)
      simp [State.core_put rd_pc, rd_pc, State.process, MoveOp.opcode, Operand.evaluate]
    | movw imm =>
      cases (if_neg other).symm.trans executed
      refine .inr (.inr (Sequence.exists_setWidth_iff.mp ⟨imm, ?_⟩))
      simp [State.core_put rd_pc, rd_pc]

/-- Loading a constant leaves exactly it in the register and changes nothing else. It takes one word
exactly if the constant or its complement is a rotated byte or the constant has sixteen bits, which
is if one instruction can move it, and two words otherwise. -/
theorem loadImmediate_shortest (u : FloatUnit) (a : Assembler) {rd : Register}
    (hd : rd.number < 15) (value : Word) :
    ∃ ws, a.apply (.expand (.loadImmediate rd value)) = .ok (.nothing, a.append ws) ∧
      (∀ s, a.condition.holds s.flags → ∃ t, Executes u ws s t ∧ t.core rd = value ∧
        t.flags = s.flags ∧ s.Keeps t [rd] []) ∧
      (ws.length = 1 ↔
        value.IsRotatedByte ∨ (~~~value).IsRotatedByte ∨ value < 0x10000) ∧
      (ws.length = 1 ↔ ∃ i : CoreInstruction, i.MovesConstant rd ∧
        ∀ s, ∃ t, i.execute s = some t ∧ t.core rd = value) ∧
      (ws.length ≠ 1 → ws.length = 2) := by
  have effect : (Sequence.loadImmediate a.condition rd value).HasEffect u _ :=
    Sequence.constant_effect hd
  obtain ⟨ws, spelled, runs⟩ := effect
  have length : ws.length = (Sequence.constant rd value).length := by
    rw [Sequence.length_words spelled]
    simp [Sequence.loadImmediate, Sequence.issueCore, Sequence.issue]
  have one : ws.length = 1 ↔ value.MovesAtOnce := by
    rw [length]
    refine ⟨fun one ↦ ?_, Sequence.length_constant_of_movesAtOnce⟩
    by_contra never
    rw [Sequence.length_constant_of_not_movesAtOnce never] at one
    exact absurd one (by decide)
  refine ⟨ws, Sequence.apply_expand spelled, ?_, one, one.trans (Word.movesAtOnce_iff hd), ?_⟩
  · intro s holds
    obtain ⟨t, executes, effect⟩ := runs s
    exact ⟨t, executes, effect holds⟩
  · intro more
    rw [length]
    exact Sequence.length_constant_of_not_movesAtOnce fun once ↦ more (one.mpr once)

/-- A constant with both halves in use takes two words. -/
theorem loadImmediate_two_words :
    ∃ ws, (Assembler.start (.near .full)).apply (.expand (.loadImmediate .r0 0x12345678)) =
        .ok (.nothing, (Assembler.start (.near .full)).append ws) ∧ ws.length = 2 := by
  have low : Register.r0.number < 15 := by decide
  obtain ⟨ws, applied, -, shape, -, more⟩ :=
    loadImmediate_shortest .reference (.start (.near .full)) low 0x12345678
  refine ⟨ws, applied, more fun one ↦ ?_⟩
  rcases shape.mp one with rotated | rotated | small
  · exact Operand.ofValue?_eq_none.mp (by decide) rotated
  · exact Operand.ofValue?_eq_none.mp (by decide) rotated
  · exact absurd small (by decide)

end A32Assembler
