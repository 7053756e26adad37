import A32Assembler.Proofs.Decoding.Vfp
import A32Assembler.Proofs.Machine.Run
import A32Assembler.Proofs.Sequence.Words

/-!
# Effects of sequences

A sequence has an effect if it has words, and running the words, wherever they lie, relates every
state to the one behind them. Effects of sequences in a row compose. The effect of an instruction
under a condition is its own if the condition holds, and otherwise none but to pass on to the next.
-/

namespace A32Assembler

namespace Register

/-- A register that exists has a field. -/
theorem exists_code {r : Register} (h : r.number < 16) : ∃ c, r.code = .ok c :=
  ⟨r.number.setWidth 4, if_pos h⟩

/-- The registers below `PC`. -/
theorem ne_pc {r : Register} (h : r.number < 15) : r ≠ .pc := by
  rintro rfl
  exact absurd h (by decide)

end Register

namespace Sequence

open Machine

/-- Running the words of a sequence relates every state to the one behind the words. -/
def HasEffect (u : FloatUnit) (q : Sequence) (effect : State → State → Prop) : Prop :=
  ∃ ws, q.words = .ok ws ∧ ∀ s, ∃ t, Executes u ws s t ∧ effect s t

variable {u : FloatUnit} {q p : Sequence} {e f g : State → State → Prop} {c : Condition}

/-- An effect says no more than what it implies. -/
theorem HasEffect.mono (h : q.HasEffect u e) (weaker : ∀ s t, e s t → f s t) : q.HasEffect u f := by
  obtain ⟨ws, words, runs⟩ := h
  refine ⟨ws, words, ?_⟩
  intro s
  obtain ⟨t, executes, effect⟩ := runs s
  exact ⟨t, executes, weaker s t effect⟩

/-- No instructions change nothing. -/
theorem HasEffect.nil : HasEffect u [] (fun s t ↦ t = s) :=
  ⟨[], rfl, fun _ ↦ ⟨_, .nil, rfl⟩⟩

/-- The effect of one sequence and then that of another. -/
theorem HasEffect.append (first : q.HasEffect u e) (second : p.HasEffect u f)
    (both : ∀ s t r, e s t → f t r → g s r) : (q ++ p).HasEffect u g := by
  obtain ⟨ws, words, runs⟩ := first
  obtain ⟨vs, words', runs'⟩ := second
  refine ⟨ws ++ vs, words_append.mpr ⟨ws, vs, words, words', rfl⟩, ?_⟩
  intro s
  obtain ⟨t, executes, effect⟩ := runs s
  obtain ⟨r, executes', effect'⟩ := runs' t
  exact ⟨r, executes.append executes', both s t r effect effect'⟩

/-- The effects of two sequences in a row. -/
theorem HasEffect.andThen (first : q.HasEffect u e) (second : p.HasEffect u f) :
    (q ++ p).HasEffect u fun s t ↦ ∃ r, e s r ∧ f r t :=
  first.append second fun _ t _ before after ↦ ⟨t, before, after⟩

/-- An instruction that has a word, is decoded from it and passes on to the next. -/
theorem HasEffect.single {i : Instruction} {after : State → State}
    (encodes : ∃ w, i.encode c = .ok w)
    (decodes : ∀ {w}, i.encode c = .ok w → decode w = some ⟨c, i⟩)
    (executes : ∀ s, i.execute u s = some (after s))
    (next : ∀ s, (after s).core .pc = s.core .pc + 4) :
    (issue c [i]).HasEffect u (fun s t ↦ t = if c.holds s.flags then after s else s.advance) := by
  obtain ⟨w, word⟩ := encodes
  refine ⟨[w], words_issue_cons.mpr ⟨w, [], word, words_issue_nil.mpr rfl, rfl⟩, ?_⟩
  intro s
  cases holds : c.holds s.flags with
  | true => exact ⟨_, .take (decodes word) holds (executes s) (next s), by simp [holds]⟩
  | false => exact ⟨_, .skip (decodes word) holds, by simp [holds]⟩

/-- Data processing has a word if its registers and its operand have fields. -/
theorem exists_dataProcessing {opcode : BitVec 4} {setFlags : Bool} {rn rd : Register} {o : Operand}
    (hn : rn.number < 16) (hd : rd.number < 16) (ho : ∃ x, o.encoding = .ok x) :
    ∃ w, Encoding.dataProcessing c opcode setFlags rn rd o = .ok w := by
  obtain ⟨n, hn⟩ := Register.exists_code hn
  obtain ⟨d, hd⟩ := Register.exists_code hd
  obtain ⟨x, hx⟩ := ho
  simp only [Encoding.dataProcessing, hn, hd, hx]
  exact ⟨_, rfl⟩

section Core

variable {rd rn rm ra : Register} {o : Operand}

/-- An operation with a result, which may set the flags. -/
theorem HasEffect.process (op : ArithmeticOp) (setFlags : Bool) (hd : rd.number < 15)
    (hn : rn.number < 15) (ho : ∃ x, o.encoding = .ok x) (plain : o.canonical = o) :
    (issueCore c [.arithmetic op setFlags rd rn o]).HasEffect u fun s t ↦
      t = if c.holds s.flags then
        (s.process op.opcode setFlags rn o).2.put rd
          (compute op.opcode s.flags (s.core rn) (o.evaluate s.read s.flags.c)).value
      else s.advance := by
  have other := Register.ne_pc hd
  apply HasEffect.single
  · exact exists_dataProcessing (by bv_omega) (by bv_omega) ho
  · intro w word
    have decoded := Decode.decode_arithmetic word
    rwa [plain] at decoded
  · intro s
    simp [Instruction.execute, CoreInstruction.execute, State.settle, State.process, other,
      State.read_of_ne (Register.ne_pc hn)]
  · intro s
    cases setFlags <;> simp [State.core_put other, State.process]

/-- An operation with a result that leaves the flags alone. -/
theorem HasEffect.arithmetic (op : ArithmeticOp) (hd : rd.number < 15) (hn : rn.number < 15)
    (ho : ∃ x, o.encoding = .ok x) (plain : o.canonical = o) :
    (issueCore c [.arithmetic op false rd rn o]).HasEffect u fun s t ↦
      t = if c.holds s.flags then
        s.put rd (compute op.opcode s.flags (s.core rn) (o.evaluate s.read s.flags.c)).value
      else s.advance :=
  .process op false hd hn ho plain

/-- A comparison. -/
theorem HasEffect.compare (op : ComparisonOp) (hn : rn.number < 15)
    (ho : ∃ x, o.encoding = .ok x) (plain : o.canonical = o) :
    (issueCore c [.compare op rn o]).HasEffect u fun s t ↦
      t = if c.holds s.flags then
        State.advance { s with
          flags := (compute op.opcode s.flags (s.core rn) (o.evaluate s.read s.flags.c)).flags }
      else s.advance := by
  apply HasEffect.single
  · exact exists_dataProcessing (by bv_omega) (by decide) ho
  · intro w word
    have decoded := Decode.decode_compare word
    rwa [plain] at decoded
  · intro s
    simp [Instruction.execute, CoreInstruction.execute, State.process,
      State.read_of_ne (Register.ne_pc hn)]
  · intro s
    simp

/-- An operation on one value that leaves the flags alone. -/
theorem HasEffect.move (op : MoveOp) (hd : rd.number < 15)
    (ho : ∃ x, o.encoding = .ok x) (plain : o.canonical = o) :
    (issueCore c [.move op false rd o]).HasEffect u fun s t ↦
      t = if c.holds s.flags then
        s.put rd (compute op.opcode s.flags (s.core .r0) (o.evaluate s.read s.flags.c)).value
      else s.advance := by
  apply HasEffect.single
  · exact exists_dataProcessing (by decide) (by bv_omega) ho
  · intro w word
    have decoded := Decode.decode_move word
    rwa [plain] at decoded
  · intro s
    simp [Instruction.execute, CoreInstruction.execute, State.settle, State.process,
      State.read_of_ne (Register.ne_pc (r := .r0) (by decide))]
  · intro s
    simp [State.core_put (Register.ne_pc hd)]

/-- A wide move of the bottom half, which clears the top half, or of the top half. -/
theorem HasEffect.moveWide (top : Bool) (imm : Halfword) (hd : rd.number < 15) :
    (issueCore c [.moveWide top rd imm]).HasEffect u fun s t ↦
      t = if c.holds s.flags then
        s.put rd (if top then imm ++ (s.core rd).extractLsb' 0 16 else imm.setWidth 32)
      else s.advance := by
  have other := Register.ne_pc hd
  apply HasEffect.single
  · obtain ⟨d, hd⟩ := Register.exists_code (r := rd) (by bv_omega)
    simp only [Instruction.encode, CoreInstruction.encode, Encoding.moveWide, hd]
    exact ⟨_, rfl⟩
  · exact Decode.decode_moveWide
  · intro s
    simp [Instruction.execute, CoreInstruction.execute, State.unlessPc, other.symm]
  · intro s
    simp [State.core_put other]

/-- A multiplication. -/
theorem HasEffect.multiply (hd : rd.number < 15) (hn : rn.number < 15) (hm : rm.number < 15) :
    (issueCore c [.multiply false rd rn rm]).HasEffect u fun s t ↦
      t = if c.holds s.flags then s.put rd (s.core rn * s.core rm) else s.advance := by
  have other := Register.ne_pc hd
  apply HasEffect.single
  · obtain ⟨d, hd⟩ := Register.exists_code (r := rd) (by bv_omega)
    obtain ⟨n, hn⟩ := Register.exists_code (r := rn) (by bv_omega)
    obtain ⟨m, hm⟩ := Register.exists_code (r := rm) (by bv_omega)
    simp only [Instruction.encode, CoreInstruction.encode, Encoding.multiply, hd, hn, hm]
    exact ⟨_, rfl⟩
  · exact Decode.decode_mul
  · intro s
    simp [Instruction.execute, CoreInstruction.execute, State.unlessPc, State.withSign,
      other.symm, (Register.ne_pc hn).symm, (Register.ne_pc hm).symm]
  · intro s
    simp [State.core_put other]

/-- A multiplication whose product is subtracted from a fourth register. -/
theorem HasEffect.multiplySubtract (hd : rd.number < 15) (hn : rn.number < 15)
    (hm : rm.number < 15) (ha : ra.number < 15) :
    (issueCore c [.multiplyAccumulate true rd rn rm ra]).HasEffect u fun s t ↦
      t = if c.holds s.flags then s.put rd (s.core ra - s.core rn * s.core rm) else s.advance := by
  have other := Register.ne_pc hd
  apply HasEffect.single
  · obtain ⟨d, hd⟩ := Register.exists_code (r := rd) (by bv_omega)
    obtain ⟨n, hn⟩ := Register.exists_code (r := rn) (by bv_omega)
    obtain ⟨m, hm⟩ := Register.exists_code (r := rm) (by bv_omega)
    obtain ⟨a, ha⟩ := Register.exists_code (r := ra) (by bv_omega)
    simp only [Instruction.encode, CoreInstruction.encode, Encoding.multiply, hd, hn, hm, ha]
    exact ⟨_, rfl⟩
  · exact Decode.decode_multiplyAccumulate
  · intro s
    simp [Instruction.execute, CoreInstruction.execute, State.unlessPc, other.symm,
      (Register.ne_pc hn).symm, (Register.ne_pc hm).symm, (Register.ne_pc ha).symm]
  · intro s
    simp [State.core_put other]

/-- A division by the hardware. -/
theorem HasEffect.divide (unsigned : Bool) (hd : rd.number < 15) (hn : rn.number < 15)
    (hm : rm.number < 15) :
    (issueCore c [.divide unsigned rd rn rm]).HasEffect u fun s t ↦
      t = if c.holds s.flags then
        s.put rd (if unsigned then s.core rn / s.core rm else (s.core rn).sdiv (s.core rm))
      else s.advance := by
  have other := Register.ne_pc hd
  apply HasEffect.single
  · obtain ⟨d, hd⟩ := Register.exists_code (r := rd) (by bv_omega)
    obtain ⟨n, hn⟩ := Register.exists_code (r := rn) (by bv_omega)
    obtain ⟨m, hm⟩ := Register.exists_code (r := rm) (by bv_omega)
    simp only [Instruction.encode, CoreInstruction.encode, Encoding.divide, hd, hn, hm]
    exact ⟨_, rfl⟩
  · exact Decode.decode_divide
  · intro s
    simp [Instruction.execute, CoreInstruction.execute, State.unlessPc, other.symm,
      (Register.ne_pc hn).symm, (Register.ne_pc hm).symm]
  · intro s
    simp [State.core_put other]

end Core

section Float

variable {signed : Bool} {sn : SRegister} {dd dn dm : DRegister} {rt : Register}

/-- A single register that exists has its two fields. -/
theorem exists_split {p : Precision} {r : FloatRegister p} (h : r.number < 32) :
    ∃ x, r.split = .ok x := by
  unfold FloatRegister.split
  cases p <;> simp only [h, if_true] <;> exact ⟨_, rfl⟩

/-- A core register moved into a single. -/
theorem HasEffect.moveToSingle (hs : sn.number < 32) (ht : rt.number < 15) :
    (issue c [.float (.moveCore false sn rt)]).HasEffect u fun s t ↦
      t = if c.holds s.flags then (s.writeSingle sn (s.core rt)).advance else s.advance := by
  apply HasEffect.single
  · obtain ⟨x, hx⟩ := exists_split hs
    obtain ⟨r, hr⟩ := Register.exists_code (r := rt) (by bv_omega)
    simp only [Instruction.encode, FloatInstruction.encode, Encoding.vfpMoveCore, hx, hr]
    exact ⟨_, rfl⟩
  · exact Decode.decode_moveCore
  · intro s
    simp [Instruction.execute, FloatInstruction.execute, State.unlessPc, (Register.ne_pc ht).symm]
  · intro s
    simp

/-- A single moved into a core register. -/
theorem HasEffect.moveToCore (hs : sn.number < 32) (ht : rt.number < 15) :
    (issue c [.float (.moveCore true sn rt)]).HasEffect u fun s t ↦
      t = if c.holds s.flags then s.put rt (s.single sn) else s.advance := by
  apply HasEffect.single
  · obtain ⟨x, hx⟩ := exists_split hs
    obtain ⟨r, hr⟩ := Register.exists_code (r := rt) (by bv_omega)
    simp only [Instruction.encode, FloatInstruction.encode, Encoding.vfpMoveCore, hx, hr]
    exact ⟨_, rfl⟩
  · exact Decode.decode_moveCore
  · intro s
    simp [Instruction.execute, FloatInstruction.execute, State.unlessPc, (Register.ne_pc ht).symm]
  · intro s
    simp [State.core_put (Register.ne_pc ht)]

/-- The double of an integer. -/
theorem HasEffect.ofInteger (hd : dd.number < 32) (hs : sn.number < 32) :
    (issue c [.float (.ofInteger signed dd sn)]).HasEffect u fun s t ↦
      t = if c.holds s.flags then
        (s.writeDouble dd (u.ofInteger signed (s.single sn))).advance
      else s.advance := by
  apply HasEffect.single
  · obtain ⟨x, hx⟩ := exists_split hd
    obtain ⟨y, hy⟩ := exists_split hs
    simp only [Instruction.encode, FloatInstruction.encode, hx, hy]
    exact ⟨_, rfl⟩
  · exact Decode.decode_ofInteger
  · exact fun _ ↦ rfl
  · intro s
    simp

/-- The quotient of doubles. -/
theorem HasEffect.vdiv (hd : dd.number < 32) (hn : dn.number < 32) (hm : dm.number < 32) :
    (issue c [.float (.binary .vdiv dd dn dm)]).HasEffect u fun s t ↦
      t = if c.holds s.flags then
        (s.writeDouble dd (u.divide (s.double dn) (s.double dm))).advance
      else s.advance := by
  apply HasEffect.single
  · obtain ⟨x, hx⟩ := exists_split hd
    obtain ⟨y, hy⟩ := exists_split hn
    obtain ⟨z, hz⟩ := exists_split hm
    simp only [Instruction.encode, FloatInstruction.encode, hx, hy, hz]
    exact ⟨_, rfl⟩
  · exact Decode.decode_vdiv
  · exact fun _ ↦ rfl
  · intro s
    simp

/-- The integer of a double. -/
theorem HasEffect.toInteger (hs : sn.number < 32) (hm : dm.number < 32) :
    (issue c [.float (.toInteger signed sn dm)]).HasEffect u fun s t ↦
      t = if c.holds s.flags then
        (s.writeSingle sn (u.toInteger signed (s.double dm))).advance
      else s.advance := by
  apply HasEffect.single
  · obtain ⟨x, hx⟩ := exists_split hs
    obtain ⟨y, hy⟩ := exists_split hm
    simp only [Instruction.encode, FloatInstruction.encode, hx, hy]
    exact ⟨_, rfl⟩
  · exact Decode.decode_toInteger
  · exact fun _ ↦ rfl
  · intro s
    simp

end Float

end Sequence

end A32Assembler
