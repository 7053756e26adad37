import A32Assembler.Proofs.Branch.Frame
import A32Assembler.Proofs.Decoding.Transfer
import A32Assembler.Proofs.Sequence.Constant

/-!
# Unique decoding

Every core instruction that can be written is read back from its word, with its condition and all
its operands, by one decoder for all of them. So no two instructions share a word. What a call of
the assembler writes is such a word, also for a near branch, whose displacement is that of its
label.
-/

namespace A32Assembler

namespace Operand

/-- The operands that can be built. -/
inductive Constructible : Operand → Prop
  | value {value : Word} {o : Operand} (built : ofValue value = .ok o) : Constructible o
  | rotated {rotate imm8 : Nat} {o : Operand} (built : Operand.rotated rotate imm8 = .ok o) :
    Constructible o
  | register (rm : Register) : Constructible (.register rm)
  | shifted {rm : Register} {s : Shift} {amount : Nat} {o : Operand}
    (built : shiftedRegister rm s amount = .ok o) : Constructible o
  | shiftedBy (rm : Register) (s : Shift) (rs : Register) : Constructible (.shiftedBy rm s rs)
  | extended (rm : Register) : Constructible (.extended rm)

/-- A register shifted left by zero is the register itself. -/
def plain : Operand → Operand
  | shifted rm s field => if s = .lsl ∧ field = 0 then register rm else shifted rm s field
  | o => o

/-- No constant rotation by zero can be built, so that field is free for the rotation through the
carry. -/
theorem Constructible.canonical_eq {o : Operand} (built : o.Constructible) :
    o.canonical = o.plain := by
  cases built with
  | @value value o built =>
    unfold ofValue at built
    split at built
    · next found =>
      obtain ⟨rotate, imm8, rfl, -⟩ := exists_of_ofValue? found
      cases built
      rfl
    · cases built
  | rotated built =>
    simp only [Operand.rotated, bind_eq_ok, pure_eq_ok] at built
    obtain ⟨-, -, -, -, rfl⟩ := built
    rfl
  | register rm => rfl
  | @shifted rm s amount o built =>
    simp only [shiftedRegister, Shift.amountField, bind_eq_ok, pure_eq_ok] at built
    obtain ⟨field, accepted, rfl⟩ := built
    split at accepted
    · next accepts =>
      cases accepted
      have turned : ¬ (s = .ror ∧ BitVec.ofNat 5 amount = 0) := by
        rintro ⟨rfl, none⟩
        obtain ⟨some_amount, few⟩ := accepts
        bv_omega
      rw [canonical, plain, if_neg turned]
    · cases accepted
  | shiftedBy rm s rs => rfl
  | extended rm => rfl

end Operand

namespace CoreInstruction

/-- The shifter operand of an instruction, if it has one. -/
def operand? : CoreInstruction → Option Operand
  | arithmetic _ _ _ _ o | compare _ _ o | move _ _ _ o => some o
  | _ => none

/-- Its shifter operand can be built. -/
def Formed (i : CoreInstruction) : Prop := ∀ o ∈ i.operand?, o.Constructible

/-- The instruction with its shifter operand in another spelling. Halfword, signed and doubleword
transfers, which do not shift, lose the kind of a shift. -/
def spell (f : Operand → Operand) : CoreInstruction → CoreInstruction
  | arithmetic op setFlags rd rn o => arithmetic op setFlags rd rn (f o)
  | compare op rn o => compare op rn (f o)
  | move op setFlags rd o => move op setFlags rd (f o)
  | transferMisc op rd a => transferMisc op rd a.unshifted
  | transferPair load rd rd2 a => transferPair load rd rd2 a.unshifted
  | i => i

/-- The instruction with one spelling for what has two: a register shifted left by zero is the
register itself. -/
def plain (i : CoreInstruction) : CoreInstruction := i.spell .plain

/-- The decoder spells operands that can be built in this way. -/
theorem Formed.spell_canonical {i : CoreInstruction} (formed : i.Formed) :
    i.spell .canonical = i.plain := by
  cases i with
  | arithmetic op setFlags rd rn o => rw [plain, spell, spell, (formed o rfl).canonical_eq]
  | compare op rn o => rw [plain, spell, spell, (formed o rfl).canonical_eq]
  | move op setFlags rd o => rw [plain, spell, spell, (formed o rfl).canonical_eq]
  | _ => rfl

end CoreInstruction

namespace Decode

variable {c d : Condition} {w : Word} {i j : CoreInstruction}

/-- A displacement counts whole words exactly when its lowest two bits are clear. -/
theorem and_three_eq_zero {offset : Word} : offset &&& 3 = 0 ↔ offset.extractLsb' 0 2 = 0#2 := by
  have masked : offset &&& 3 = (offset.extractLsb' 0 2).setWidth 32 := Word.and_low offset 2
  rw [masked]
  constructor
  · intro clear
    have shorter : ((offset.extractLsb' 0 2).setWidth 32).setWidth 2 = offset.extractLsb' 0 2 := by
      simp
    rw [← shorter, clear]
    rfl
  · intro clear
    rw [clear]
    rfl

/-- A near branch has a word if its displacement is in range and in whole words. -/
theorem encode_branch {link : Bool} {offset : Word} :
    (CoreInstruction.branch link offset).encode c = .ok w ↔
      Encoding.InBranchRange offset ∧ offset.extractLsb' 0 2 = 0#2 ∧
        Encoding.nearWord c link (offset.extractLsb' 2 24) = w := by
  simp only [CoreInstruction.encode, Encoding.branch, Encoding.branchField, bind_eq_ok, pure_eq_ok,
    Encoding.nearWord]
  constructor
  · rintro ⟨⟨⟩, aligned, field, ⟨⟨⟩, range, rfl⟩, rfl⟩
    exact ⟨require_eq_ok.mp range, and_three_eq_zero.mp (require_eq_ok.mp aligned), rfl⟩
  · rintro ⟨range, aligned, rfl⟩
    exact ⟨(), require_eq_ok.mpr (and_three_eq_zero.mpr aligned), _,
      ⟨(), require_eq_ok.mpr range, rfl⟩, rfl⟩

/-- A near branch, by the displacement that it was encoded from. -/
theorem decode_branch_offset {link : Bool} {offset : Word}
    (h : (CoreInstruction.branch link offset).encode c = .ok w) :
    decode w = some ⟨c, .core (.branch link offset)⟩ := by
  obtain ⟨range, aligned, rfl⟩ := encode_branch.mp h
  rw [Encoding.nearWord, decode_branch, signExtend_field range aligned]

/-- Every core instruction is read back from its word, with its condition, in the spelling of the
decoder. -/
theorem decode_encode (h : i.encode c = .ok w) :
    decode w = some ⟨c, .core (i.spell .canonical)⟩ := by
  cases i with
  | arithmetic op setFlags rd rn o => exact decode_arithmetic h
  | compare op rn o => exact decode_compare h
  | move op setFlags rd o => exact decode_move h
  | moveWide top rd imm => exact decode_moveWide h
  | countLeadingZeros rd rm => exact decode_countLeadingZeros h
  | nop =>
    cases h
    exact decode_nop
  | breakpoint imm => exact decode_breakpoint h
  | multiply setFlags rd rn rm => exact decode_mul h
  | multiplyAccumulate subtract rd rn rm ra => exact decode_multiplyAccumulate h
  | multiplyLong op lo hi rn rm => exact decode_multiplyLong h
  | divide unsigned rd rn rm => exact decode_divide h
  | transfer load byte rd a => exact decode_transfer h
  | transferMisc op rd a => exact decode_transferMisc h
  | transferPair load rd rd2 a => exact decode_transferPair h
  | transferBlock load mode base list => exact decode_transferBlock h
  | loadExclusive rt rn => exact decode_loadExclusive h
  | storeExclusive rd rt rn => exact decode_storeExclusive h
  | clearExclusive => exact decode_clearExclusive h
  | branch link offset => exact decode_branch_offset h
  | branchExchange link rm => exact decode_branchExchange h

/-- Two core instructions with one word are the same, up to spelling, under the same condition. -/
theorem encode_injective (formed_i : i.Formed) (formed_j : j.Formed) (hi : i.encode c = .ok w)
    (hj : j.encode d = .ok w) : c = d ∧ i.plain = j.plain := by
  have same := (decode_encode hi).symm.trans (decode_encode hj)
  simpa [formed_i.spell_canonical, formed_j.spell_canonical] using same

end Decode

private theorem ofNat_sub_ofNat_eq_ofInt (m n : Nat) :
    BitVec.ofNat 32 m - BitVec.ofNat 32 n = BitVec.ofInt 32 (m - n) := by
  rw [Int.sub_eq_add_neg, BitVec.ofInt_add, BitVec.ofInt_neg, BitVec.ofInt_natCast,
    BitVec.ofInt_natCast, BitVec.sub_eq_add_neg]

/-- The core instruction that a call is the mnemonic of, if it writes a single word. A near branch
to a bound label is the branch by the distance to the label, in bytes, from eight behind the
branch. -/
inductive Call.Writes (a : Assembler) : Call → CoreInstruction → Prop
  | issue {i : CoreInstruction} (formed : i.Formed) : Writes a (.issue (.core i)) i
  | shift {s : Shift} {rd rm : Register} {amount : Nat} {i : CoreInstruction}
    (built : CoreInstruction.shift s rd rm amount = .ok i) : Writes a (.shift s rd rm amount) i
  | branch {link : Bool} {l : Label} {target : Nat} (near : a.settings.farBranches = false)
    (bound : a.labels.position? l = .ok (some target)) :
    Writes a (.branch link l) (.branch link (BitVec.ofInt 32 (target - (a.position + 8 : Nat))))

namespace Call.Writes

variable {a b : Assembler} {c : Condition} {call : Call} {i : CoreInstruction} {answer : Answer}
  {h : List EmittedBranch}

/-- What a call writes has an operand that can be built. -/
theorem formed (writes : call.Writes a i) : i.Formed := by
  cases writes with
  | issue formed => exact formed
  | shift built =>
    simp only [CoreInstruction.shift, bind_eq_ok, pure_eq_ok] at built
    obtain ⟨o, built, rfl⟩ := built
    rintro o' ⟨⟩
    exact .shifted built
  | branch near bound => rintro o ⟨⟩

private theorem encode_issue {i : Instruction} {e : Assembler} (done : e.issue i = .ok b) :
    ∃ w, i.encode e.condition = .ok w ∧ b.buffer.words = e.buffer.words ++ [w] := by
  simp only [Assembler.issue, bind_eq_ok, pure_eq_ok] at done
  obtain ⟨w, encoded, rfl⟩ := done
  exact ⟨w, encoded, e.buffer.words_emitAll [w]⟩

/-- A call appends the word of the instruction that it writes. -/
theorem encode (writes : call.Writes a i) (inv : Tracks a h)
    (done : Assembler.apply { a with condition := c } call = .ok (answer, b)) :
    ∃ w, i.encode c = .ok w ∧ b.buffer.words = a.buffer.words ++ [w] := by
  cases writes with
  | issue formed =>
    simp only [Assembler.apply, liftMisuse_eq_ok, bind_eq_ok, pure_eq_ok, Prod.mk.injEq] at done
    obtain ⟨b, done, -, rfl⟩ := done
    exact encode_issue done
  | shift built =>
    simp only [Assembler.apply, liftMisuse_eq_ok, liftRefusal_eq_ok, built, bind_eq_ok, pure_eq_ok,
      Prod.mk.injEq, Except.ok.injEq, exists_eq_left'] at done
    obtain ⟨b, done, -, rfl⟩ := done
    exact encode_issue done
  | @branch link l target near bound =>
    simp only [Assembler.apply, liftMisuse_eq_ok, bind_eq_ok, pure_eq_ok, Prod.mk.injEq] at done
    obtain ⟨b, done, -, rfl⟩ := done
    obtain ⟨offset, spelled, aimed⟩ := Assembler.words_branch done
    have kind : ({ a with condition := c } : Assembler).branchKind = .near := by
      simp [Assembler.branchKind, near]
    obtain ⟨distance, range⟩ := aimed target bound
    have aligned := aligned_displacement a.buffer.size_mod
      (inv.aligned l target (LabelTable.position?_eq_ok.mp bound))
    have exact_distance : offset = BitVec.ofInt 32 (target - (a.position + 8 : Nat)) := by
      rw [← ofNat_sub_ofNat_eq_ofInt, distance, kind]
      rfl
    rw [kind, exact_distance] at spelled
    rw [exact_distance] at range
    refine ⟨_, Decode.encode_branch.mpr ⟨range kind, ?_, rfl⟩, spelled⟩
    rw [← ofNat_sub_ofNat_eq_ofInt]
    exact aligned

end Call.Writes

/-- In every assembler that a script can lead to and under every condition, a call that is the
mnemonic of one core instruction appends one word. The decoder reads the condition and the
instruction with all its operands back from this word, and no other condition and no other
instruction has it. -/
theorem written_word_decodes {settings : Settings} {steps : List Step} {records : List Record}
    {a b : Assembler} {c : Condition} {call : Call} {i : CoreInstruction} {answer : Answer}
    (ran : runSteps (.start settings) steps = (records, some a)) (writes : call.Writes a i)
    (done : Assembler.apply { a with condition := c } call = .ok (answer, b)) :
    ∃ w, b.buffer.words = a.buffer.words ++ [w] ∧ decode w = some ⟨c, .core i.plain⟩ ∧
      ∀ (d : Condition) (j : CoreInstruction), j.Formed → j.encode d = .ok w →
        d = c ∧ j.plain = i.plain := by
  obtain ⟨w, encoded, spelled⟩ := writes.encode (Tracks.start.script ran) done
  refine ⟨w, spelled, ?_,
    fun d j formed same ↦ Decode.encode_injective formed writes.formed same encoded⟩
  rw [Decode.decode_encode encoded, writes.formed.spell_canonical]

/-- A label at the start of the code, and one word behind it. -/
def labelBehind : List Step :=
  [.call (.ok .newLabel), .call (.ok (.bind ⟨0⟩)), .call (.ok (.word 0xe320f000))]

/-- A conditional branch with link back to the label. -/
theorem backward_call_decodes : ∃ a b w,
    (runSteps (.start (.near .full)) labelBehind).2 = some a ∧
    Assembler.apply { a with condition := .ne } (.branch true ⟨0⟩) = .ok (.nothing, b) ∧
    b.buffer.words = a.buffer.words ++ [w] ∧ decode w = some ⟨.ne, .core (.branch true (-12))⟩ := by
  have facts : (runSteps (.start (.near .full)) labelBehind).2.map (fun a ↦
      (a.labels.states[0]?, a.position, a.settings.farBranches,
        (Assembler.branch { a with condition := .ne } true ⟨0⟩).isOk)) =
      some (some (.bound 0), 4, false, true) := by
    decide +kernel
  obtain ⟨a, ran, facts⟩ := Option.map_eq_some_iff.mp facts
  simp only [Prod.mk.injEq] at facts
  obtain ⟨bound, position, near, accepted⟩ := facts
  cases issued : Assembler.branch { a with condition := .ne } true ⟨0⟩ with
  | error m => simp [issued, Except.isOk, Except.toBool] at accepted
  | ok b =>
    have done : Assembler.apply { a with condition := .ne } (.branch true ⟨0⟩) =
        .ok (.nothing, b) := by
      rw [Assembler.apply, issued]
      rfl
    have writes : (Call.branch true ⟨0⟩).Writes a (.branch true (-12)) := by
      have at_start : a.labels.position? ⟨0⟩ = .ok (some 0) :=
        LabelTable.position?_eq_ok.mpr (LabelTable.state_eq_ok.mpr bound)
      have written : (Call.branch true ⟨0⟩).Writes a _ := .branch near at_start
      rwa [position] at written
    obtain ⟨w, spelled, decoded, -⟩ := written_word_decodes (Prod.ext rfl ran) writes done
    exact ⟨a, b, w, ran, done, spelled, decoded⟩

end A32Assembler
