import A32Assembler.Float.Immediate
import A32Assembler.Proofs.Word.Field

/-!
# Constants of eight bits

The pattern that the eight bits of a floating-point constant stand for: the sign, an exponent that
repeats one bit, and the fraction. A pattern with an 8-bit form is the one that its form stands for,
and what eight bits stand for has them as its form.
-/

namespace A32Assembler

/-- The pattern with a given number of repeated exponent bits and of fraction bits left empty. -/
def expandImmediate (repeated empty : Nat) (imm8 : Byte) :
    BitVec (1 + 1 + repeated + 6 + empty) :=
  imm8.extractLsb' 7 1 ++ ~~~imm8.extractLsb' 6 1 ++
    (if imm8.getLsbD 6 then BitVec.allOnes repeated else 0) ++ imm8.extractLsb' 0 6 ++
    (0 : BitVec empty)

/-- The single-precision pattern of eight bits. -/
def Single.expand (imm8 : Byte) : Word := expandImmediate 5 19 imm8

/-- The double-precision pattern of eight bits. -/
def Double.expand (imm8 : Byte) : Doubleword := expandImmediate 8 48 imm8

/-- A pattern is its sign, its first exponent bit, the repeated bits, the tail and the rest. -/
theorem join_fields {repeated empty : Nat} (x : BitVec (1 + 1 + repeated + 6 + empty)) :
    x.extractLsb' (empty + 6 + repeated + 1) 1 ++ x.extractLsb' (empty + 6 + repeated) 1 ++
      x.extractLsb' (empty + 6) repeated ++ x.extractLsb' empty 6 ++ x.extractLsb' 0 empty = x := by
  rw [BitVec.extractLsb'_append_extractLsb'_eq_extractLsb' rfl,
    BitVec.extractLsb'_append_extractLsb'_eq_extractLsb' rfl,
    BitVec.extractLsb'_append_extractLsb'_eq_extractLsb' rfl,
    BitVec.extractLsb'_append_extractLsb'_eq_extractLsb' (Nat.zero_add _).symm,
    BitVec.extractLsb'_eq_self]

/-- The parts of eight bits that are joined from a sign, an exponent bit and a tail. -/
theorem immediate_parts (sign small : BitVec 1) (tail : BitVec 6) :
    let imm8 := sign.setWidth 8 <<< 7 ||| small.setWidth 8 <<< 6 ||| tail.setWidth 8
    imm8.extractLsb' 7 1 = sign ∧ imm8.extractLsb' 6 1 = small ∧
      imm8.getLsbD 6 = (small = 1#1) ∧ imm8.extractLsb' 0 6 = tail := by
  revert sign small tail
  decide +kernel

/-- A pattern that is empty below and repeats one exponent bit, after its inverse, is what its sign,
that bit and its tail stand for. -/
theorem expandImmediate_join (repeated empty : Nat) (x : BitVec (1 + 1 + repeated + 6 + empty))
    (small : BitVec 1) (first : x.extractLsb' (empty + 6 + repeated) 1 = ~~~small)
    (others : x.extractLsb' (empty + 6) repeated =
      if small = 1 then BitVec.allOnes repeated else 0)
    (rest : x.extractLsb' 0 empty = 0) :
    expandImmediate repeated empty
      ((x.extractLsb' (empty + 6 + repeated + 1) 1).setWidth 8 <<< 7 |||
        small.setWidth 8 <<< 6 ||| (x.extractLsb' empty 6).setWidth 8) = x := by
  obtain ⟨sign, second, large, tail⟩ := immediate_parts
    (x.extractLsb' (empty + 6 + repeated + 1) 1) small (x.extractLsb' empty 6)
  rw [expandImmediate, sign, second, tail, if_congr (iff_of_eq large) rfl rfl]
  exact Eq.trans (by rw [first, others, rest]; rfl) (join_fields x)

/-- A single-precision pattern with an 8-bit form is the one that the form stands for. -/
theorem Single.expand_of_immediate? {x : Word} {imm8 : Byte}
    (found : immediate? x = some imm8) : expand imm8 = x := by
  unfold immediate? at found
  dsimp only at found
  split at found
  · next form =>
    obtain ⟨rest, exponent⟩ := form
    cases found
    have first : (x.extractLsb' 25 6).extractLsb' 5 1 = x.extractLsb' 30 1 :=
      Word.extractLsb'_extractLsb' x (by decide)
    have second : (x.extractLsb' 25 6).extractLsb' 4 1 = x.extractLsb' 29 1 :=
      Word.extractLsb'_extractLsb' x (by decide)
    have others : (x.extractLsb' 25 6).extractLsb' 0 5 = x.extractLsb' 25 5 :=
      Word.extractLsb'_extractLsb' x (by decide)
    refine expandImmediate_join 5 19 x (x.extractLsb' 29 1) ?_ ?_ rest
    · rw [← second]
      refine first.symm.trans ?_
      rcases exponent with exponent | exponent <;> rw [exponent] <;> rfl
    · rw [← second]
      refine others.symm.trans ?_
      rcases exponent with exponent | exponent <;> rw [exponent] <;> rfl
  · cases found

/-- A double-precision pattern with an 8-bit form is the one that the form stands for. -/
theorem Double.expand_of_immediate? {x : Doubleword} {imm8 : Byte}
    (found : immediate? x = some imm8) : expand imm8 = x := by
  unfold immediate? at found
  dsimp only at found
  split at found
  · next form =>
    obtain ⟨rest, exponent⟩ := form
    cases found
    have first : (x.extractLsb' 54 9).extractLsb' 8 1 = x.extractLsb' 62 1 :=
      Word.extractLsb'_extractLsb' x (by decide)
    have second : (x.extractLsb' 54 9).extractLsb' 7 1 = x.extractLsb' 61 1 :=
      Word.extractLsb'_extractLsb' x (by decide)
    have others : (x.extractLsb' 54 9).extractLsb' 0 8 = x.extractLsb' 54 8 :=
      Word.extractLsb'_extractLsb' x (by decide)
    refine expandImmediate_join 8 48 x (x.extractLsb' 61 1) ?_ ?_ rest
    · rw [← second]
      refine first.symm.trans ?_
      rcases exponent with exponent | exponent <;> rw [exponent] <;> rfl
    · rw [← second]
      refine others.symm.trans ?_
      rcases exponent with exponent | exponent <;> rw [exponent] <;> rfl
  · cases found

/-- What eight bits stand for has an 8-bit form. -/
theorem Single.immediate?_expand (imm8 : Byte) : immediate? (expand imm8) = some imm8 := by
  revert imm8
  decide +kernel

/-- What eight bits stand for has an 8-bit form. -/
theorem Double.immediate?_expand (imm8 : Byte) : immediate? (expand imm8) = some imm8 := by
  revert imm8
  decide +kernel

/-- A single has an 8-bit form exactly if it is what the form stands for. -/
theorem Single.immediate?_eq_some {x : Word} {imm8 : Byte} :
    immediate? x = some imm8 ↔ expand imm8 = x :=
  ⟨expand_of_immediate?, fun same ↦ same ▸ immediate?_expand imm8⟩

/-- A double has an 8-bit form exactly if it is what the form stands for. -/
theorem Double.immediate?_eq_some {x : Doubleword} {imm8 : Byte} :
    immediate? x = some imm8 ↔ expand imm8 = x :=
  ⟨expand_of_immediate?, fun same ↦ same ▸ immediate?_expand imm8⟩

/-- Different eight bits stand for different singles. -/
theorem Single.expand_injective : Function.Injective expand := by
  intro a b same
  have found := immediate?_eq_some.mpr same
  rw [immediate?_expand] at found
  exact (Option.some.inj found).symm

/-- Different eight bits stand for different doubles. -/
theorem Double.expand_injective : Function.Injective expand := by
  intro a b same
  have found := immediate?_eq_some.mpr same
  rw [immediate?_expand] at found
  exact (Option.some.inj found).symm

end A32Assembler
