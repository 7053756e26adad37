import A32Assembler.Proofs.Assembler.Calls
import A32Assembler.Proofs.Decoding.Condition
import A32Assembler.Proofs.Decoding.Vector

/-!
# One decoder for all families

The decoders of core, VFP and vector words join to one, as no word belongs to two of the families.
So what a VFP or vector mnemonic writes is read back with all its operands, and no other instruction
of any family has the same word, the spellings that mean the same aside.
-/

namespace A32Assembler

namespace Instruction

/-- Its operands can be built, and the registers at both ends of a list exist. -/
def Formed : Instruction → Prop
  | core i => i.Formed
  | float i => i.Named
  | vector _ => True

/-- The instruction with one spelling for what has several: a core register shifted by zero, and
the sizes of one lane width. -/
def plain : Instruction → Instruction
  | core i => core i.plain
  | float i => float i
  | vector i => vector i.plain

end Instruction

/-- The instruction that a word of any family stands for, with its condition. -/
def decodeAny (w : Word) : Option Predicated :=
  match Decode.condition? (w.extractLsb' 28 4) with
  | some c =>
    match Decode.vfp w with
    | some i => some ⟨c, .float i⟩
    | none => decode w
  | none =>
    match Decode.vector w with
    | some i => some ⟨.al, .vector i⟩
    | none => decode w

namespace Decode

variable {c d : Condition} {w : Word}

/-- A word of the core families has another class than those of the VFP unit. -/
theorem vfp_eq_none {i : CoreInstruction} (h : instruction? w = some (.core i)) :
    vfp w = none := by
  have transfer : w.extractLsb' 25 3 ≠ 6#3 := by
    intro kind
    simp [instruction?, kind] at h
  have data : w.extractLsb' 25 3 ≠ 7#3 := by
    intro kind
    simp [instruction?, kind] at h
  simp [vfp, transfer, data]

/-- Core words. -/
theorem decodeAny_core {i : CoreInstruction} (h : decode w = some ⟨c, .core i⟩) :
    decodeAny w = some ⟨c, .core i⟩ := by
  unfold decodeAny
  split
  · next d found =>
    have none : vfp w = none := by
      simp only [decode, found, Option.map_eq_some_iff, Predicated.mk.injEq] at h
      obtain ⟨j, classed, -, rfl⟩ := h
      exact vfp_eq_none classed
    rw [none, h]
  · next found =>
    have none : vector w = none := by
      simp only [decode, found] at h
      split at h
      · next clear =>
        subst clear
        decide
      · cases h
    rw [none, h]

/-- VFP words. -/
theorem decodeAny_float {i : FloatInstruction} (named : i.Named) (h : i.encode c = .ok w) :
    decodeAny w = some ⟨c, .float i⟩ := by
  obtain ⟨condition, decoded⟩ := vfp_encode named h
  simp only [decodeAny, condition, condition?_bits, decoded]

/-- Vector words. -/
theorem decodeAny_vector {i : VectorInstruction} (h : i.encode c = .ok w) :
    decodeAny w = some ⟨c, .vector i.plain⟩ := by
  have decoded := vector_encode h
  have unconditional : condition? 0xf#4 = none := rfl
  rw [decodeAny, top_of_vector decoded, unconditional, decoded, i.always_of_encode h]

/-- The arithmetic that divides integers is among that of the VFP unit. -/
theorem vfpArithmetic_of_floatData {q : Precision} {i : FloatInstruction}
    (h : floatData q w = some i) : vfpArithmetic q w = some i := by
  unfold vfpArithmetic
  split
  · next high two low =>
    simp only [floatData, high, two, low] at h
    split at h
    · next kind =>
      cases h
      simp [vfpUnary, kind]
    · split at h
      · next other kind =>
        obtain ⟨kind, unsigned⟩ := kind
        cases h
        -- the lowest of the four bits is the sign
        have joined : w.extractLsb' 17 3 ++ w.extractLsb' 16 1 = w.extractLsb' 16 4 :=
          BitVec.extractLsb'_append_extractLsb'_eq_extractLsb' rfl
        rw [kind] at joined
        rcases Bool.eq_false_or_eq_true (bit w 16) with sign | sign
        · have set : w.extractLsb' 16 1 = 1#1 := by simpa [bit] using sign
          simp [vfpUnary, ← joined, set, sign, unsigned]
        · have clear : w.extractLsb' 16 1 = 0#1 := by
            have := (w.extractLsb' 16 1).isLt
            have : w.extractLsb' 16 1 ≠ 1#1 := by simpa [bit] using sign
            bv_omega
          simp [vfpUnary, ← joined, clear, sign, unsigned]
      · cases h
  · next high two low => simp [floatData, high, two, low] at h
  · exact h

/-- What divides integers is decoded as an instruction of the VFP unit, too. -/
theorem vfp_of_float {i : FloatInstruction} (h : float w = some i) : vfp w = some i := by
  unfold float at h
  split at h
  · cases h
  · next unit =>
    obtain ⟨unit, kind⟩ := by simpa only [not_or, not_not] using unit
    have high : w.extractLsb' 25 3 = 7#3 := by
      rw [← Word.extractLsb'_extractLsb' (s := 24) (l := 4) (i := 1) w (by decide), kind]
      rfl
    have low : bit w 24 = false := by
      rw [bit, ← Word.extractLsb'_extractLsb' (s := 24) (l := 4) (i := 0) w (by decide), kind]
      rfl
    split at h
    · next moves =>
      split at h
      · next known => simpa [vfp, unit, high, low, moves, vfpCore, known] using h
      · cases h
    · next moves =>
      have arithmetic := vfpArithmetic_of_floatData h
      simpa [vfp, unit, high, low, moves, precision] using arithmetic

/-- The instruction of a word is a core instruction, or one of the VFP unit. -/
theorem instruction?_cases {i : Instruction} (h : instruction? w = some i) :
    (∃ j, i = .core j) ∨ ∃ j, i = .float j ∧ float w = some j := by
  unfold instruction? at h
  split at h
  case h_6 => exact .inl ⟨_, (Option.some.inj h).symm⟩
  case h_7 =>
    obtain ⟨j, found, same⟩ := Option.map_eq_some_iff.mp h
    exact .inr ⟨j, same.symm, found⟩
  case h_4 =>
    split at h <;>
    · obtain ⟨j, -, same⟩ := Option.map_eq_some_iff.mp h
      exact .inl ⟨j, same.symm⟩
  all_goals
    obtain ⟨j, -, same⟩ := Option.map_eq_some_iff.mp h
    exact .inl ⟨j, same.symm⟩

/-- What one decoder gives, the decoder of all families gives. -/
theorem decodeAny_of_decode {p : Predicated} (h : decode w = some p) : decodeAny w = some p := by
  have decoded := h
  unfold decode at decoded
  split at decoded
  · next c found =>
    obtain ⟨i, classed, rfl⟩ := Option.map_eq_some_iff.mp decoded
    obtain ⟨j, rfl⟩ | ⟨j, rfl, unit⟩ := instruction?_cases classed
    · exact decodeAny_core h
    · simp only [decodeAny, found, vfp_of_float unit]
  · split at decoded
    · next clear =>
      cases decoded
      exact decodeAny_core h
    · cases decoded

/-- Every instruction is read back from its word, with its condition. -/
theorem decodeAny_encode {i : Instruction} (formed : i.Formed) (h : i.encode c = .ok w) :
    decodeAny w = some ⟨c, i.plain⟩ := by
  cases i with
  | core i =>
    have decoded := decode_encode h
    rw [CoreInstruction.Formed.spell_canonical formed] at decoded
    exact decodeAny_core decoded
  | float i => exact decodeAny_float formed h
  | vector i => exact decodeAny_vector h

/-- Two instructions with one word are the same, up to spelling, under the same condition. -/
theorem eq_of_encode_eq {i j : Instruction} (formed_i : i.Formed) (formed_j : j.Formed)
    (hi : i.encode c = .ok w) (hj : j.encode d = .ok w) : d = c ∧ j.plain = i.plain := by
  have same := (decodeAny_encode formed_j hj).symm.trans (decodeAny_encode formed_i hi)
  simpa using same

end Decode

/-- The VFP or vector instruction that a call is the mnemonic of. -/
inductive Call.WritesExtension : Call → Instruction → Prop
  | float {i : FloatInstruction} (named : i.Named) : WritesExtension (.issue (.float i)) (.float i)
  | vector (i : VectorInstruction) : WritesExtension (.issue (.vector i)) (.vector i)
  | moveSingle {sd : SRegister} {value : Word} {i : FloatInstruction}
    (built : FloatInstruction.moveSingle sd value = .ok i) :
    WritesExtension (.moveSingle sd value) (.float i)
  | moveDouble {dd : DRegister} {value : Doubleword} {i : FloatInstruction}
    (built : FloatInstruction.moveDouble dd value = .ok i) :
    WritesExtension (.moveDouble dd value) (.float i)

namespace Call.WritesExtension

variable {a b : Assembler} {call : Call} {i : Instruction} {answer : Answer}

/-- What such a call writes names registers that exist. -/
theorem formed (writes : call.WritesExtension i) : i.Formed := by
  cases writes with
  | float named => exact named
  | vector i => trivial
  | @moveSingle sd value i built =>
    unfold FloatInstruction.moveSingle at built
    split at built <;> cases built
    trivial
  | @moveDouble dd value i built =>
    unfold FloatInstruction.moveDouble at built
    split at built <;> cases built
    trivial

/-- Such a call issues its instruction alone. -/
theorem sequence_eq (writes : call.WritesExtension i) :
    call.Issues ∧ call.sequence a = [.ok ⟨a.condition, i⟩] := by
  cases writes with
  | float | vector => exact ⟨trivial, rfl⟩
  | moveSingle built | moveDouble built => exact ⟨trivial, by rw [sequence, built]⟩

/-- Such a call appends the word of its instruction. -/
theorem encode (writes : call.WritesExtension i) (done : a.apply call = .ok (answer, b)) :
    ∃ w, i.encode a.condition = .ok w ∧ b = a.append [w] := by
  obtain ⟨issues, alone⟩ := writes.sequence_eq (a := a)
  cases Assembler.apply_does done with
  | issue _ spelled =>
    rw [alone, Sequence.words_cons] at spelled
    obtain ⟨p, w, vs, same, encoded, rest, rfl⟩ := spelled
    cases same
    rw [Sequence.words_nil.mp rest]
    exact ⟨w, encoded, rfl⟩
  | ask asks => cases writes <;> cases asks
  | _ => cases issues

end Call.WritesExtension

/-- Under every condition, an accepted call that is the mnemonic of a VFP or vector instruction
appends one word. The decoder reads the condition and the instruction with all its registers,
indices, lengths, constants and offsets back from this word, and no other condition and no other
instruction of any family has it, up to sizes of the same lane width. -/
theorem extension_word_decodes {a b : Assembler} {call : Call} {i : Instruction} {answer : Answer}
    (writes : call.WritesExtension i) (done : a.apply call = .ok (answer, b)) :
    ∃ w, b.buffer.words = a.buffer.words ++ [w] ∧ decodeAny w = some ⟨a.condition, i.plain⟩ ∧
      ∀ (d : Condition) (j : Instruction), j.Formed → j.encode d = .ok w →
        d = a.condition ∧ j.plain = i.plain := by
  obtain ⟨w, encoded, rfl⟩ := writes.encode done
  exact ⟨w, a.buffer.words_emitAll [w], Decode.decodeAny_encode writes.formed encoded,
    fun d j formed same ↦ Decode.eq_of_encode_eq writes.formed formed encoded same⟩

/-- A multiplication with registers from both banks of doubles. -/
def acrossBanks : FloatInstruction := .binary .vmla (p := .double) ⟨17⟩ ⟨3⟩ ⟨30⟩

/-- The multiplication under a condition. -/
theorem across_banks_decodes : ∃ b w,
    Assembler.apply { Assembler.start (.near .full) with condition := .ne }
      (.issue (.float acrossBanks)) = .ok (.nothing, b) ∧
    b.buffer.words = [w] ∧ decodeAny w = some ⟨.ne, .float acrossBanks⟩ := by
  have accepted : ∃ b, Assembler.apply { Assembler.start (.near .full) with condition := .ne }
      (.issue (.float acrossBanks)) = .ok (.nothing, b) := ⟨_, rfl⟩
  have named : acrossBanks.Named := trivial
  obtain ⟨b, done⟩ := accepted
  obtain ⟨w, spelled, decoded, -⟩ := extension_word_decodes (.float named) done
  exact ⟨b, w, done, spelled, decoded⟩

end A32Assembler
