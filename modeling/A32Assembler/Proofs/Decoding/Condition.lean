import A32Assembler.Proofs.Decoding.Unique

/-!
# The condition of a word

The top four bits of an encoded instruction are the condition that it is issued under. The
instructions without a condition, which are the vector instructions and the end of an exclusive
access, are issued under `AL` only, and so is the breakpoint.
-/

namespace A32Assembler

open Word (place flag)

/-- The condition of a word. -/
def Word.conditionBits (w : Word) : BitVec 4 := w.extractLsb' 28 4

/-- Whether an instruction is issued under `AL` only. -/
def Instruction.isUnconditional : Instruction → Bool
  | core .clearExclusive | core (.breakpoint _) | vector _ => true
  | _ => false

variable {c : Condition} {w x : Word}

/-- Only its own field names a condition. -/
theorem Decode.condition?_eq_some {field : BitVec 4} (found : condition? field = some c) :
    field = c.bits := by
  have all : ∀ field : BitVec 4, ∀ d, condition? field = some d → field = d.bits := by
    intro field d
    cases d <;> revert field <;> decide
  exact all field c found

/-- A word is decoded under the condition of its top bits; the end of an exclusive access has
none. -/
theorem Decode.conditionBits_eq {i : Instruction} (decoded : decode w = some ⟨c, i⟩)
    (other : i ≠ .core .clearExclusive) : w.conditionBits = c.bits := by
  unfold decode at decoded
  split at decoded
  · next d found =>
    obtain ⟨j, -, same⟩ := Option.map_eq_some_iff.mp decoded
    cases same
    exact condition?_eq_some found
  · split at decoded
    · cases decoded
      exact absurd rfl other
    · cases decoded

/-- Another spelling of its operand does not make an instruction the end of an exclusive access. -/
theorem CoreInstruction.eq_of_spell {f : Operand → Operand} {i : CoreInstruction}
    (same : i.spell f = .clearExclusive) : i = .clearExclusive := by
  cases i with
  | clearExclusive => rfl
  | _ => cases same

/-- Core instructions. -/
theorem CoreInstruction.conditionBits_eq {i : CoreInstruction} (h : i.encode c = .ok w)
    (other : i ≠ .clearExclusive) : w.conditionBits = c.bits := by
  refine Decode.conditionBits_eq (Decode.decode_encode h) fun same ↦ other ?_
  injection same with same
  exact eq_of_spell same

/-- A small word has no top bits. -/
theorem Word.extractLsb'_top (small : x.toNat < 2 ^ 28) : x.extractLsb' 28 4 = 0#4 := by
  apply BitVec.eq_of_toNat_eq
  rw [BitVec.extractLsb'_toNat, Nat.shiftRight_eq_div_pow, Nat.div_eq_of_lt small]
  rfl

namespace Encoding

variable {load double : Bool} {d n m : SplitNumber} {mode : BlockMode} {base : Register}

/-- Arithmetic of the VFP unit, comparison and conversion. -/
theorem vfpData_conditionBits {opcode : Word} (low : opcode.extractLsb' 28 4 = 0#4) :
    (vfpData c opcode double d n m).conditionBits = c.bits := by
  simp [Word.conditionBits, vfpData, condition, flag, BitVec.extractLsb'_or, low]

/-- Transfers of VFP registers. -/
theorem vfpLoadStore_conditionBits {a : Address} (h : vfpLoadStore c load double d a = .ok w) :
    w.conditionBits = c.bits := by
  simp only [vfpLoadStore, bind_eq_ok, pure_eq_ok] at h
  obtain ⟨x, written, rfl⟩ := h
  have low : x.extractLsb' 28 4 = 0#4 := by
    obtain ⟨base, displacement, mode⟩ := a
    obtain ⟨⟨⟩, -, written⟩ := bind_eq_ok.mp written
    cases displacement with
    | register rm shift field => cases written
    | immediate m =>
      simp only [bind_eq_ok, pure_eq_ok] at written
      obtain ⟨m, rfl, ⟨⟩, -, ⟨⟩, few, b, -, rfl⟩ := written
      have few : m.toNat < 1024 := require_eq_ok.mp few
      have small : (m >>> 2).toNat < 2 ^ 28 := by
        rw [BitVec.toNat_ushiftRight, Nat.shiftRight_eq_div_pow]
        omega
      simp [flag, BitVec.extractLsb'_or, Word.extractLsb'_top small]
  simp [Word.conditionBits, condition, flag, BitVec.extractLsb'_or, low]

/-- Block transfers of VFP registers. -/
theorem vfpBlockTransfer_conditionBits {first : SplitNumber} {words : Word}
    (few : words.toNat < 2 ^ 28)
    (h : vfpBlockTransfer c load double mode base first words = .ok w) :
    w.conditionBits = c.bits := by
  simp only [vfpBlockTransfer, bind_eq_ok, pure_eq_ok] at h
  obtain ⟨⟨⟩, -, b, -, rfl⟩ := h
  simp [Word.conditionBits, condition, flag, BlockMode.bits, BitVec.extractLsb'_or,
    Word.extractLsb'_top few]

end Encoding

/-- VFP instructions. -/
theorem FloatInstruction.conditionBits_eq {i : FloatInstruction} (h : i.encode c = .ok w) :
    w.conditionBits = c.bits := by
  cases i <;> simp only [FloatInstruction.encode, bind_eq_ok, pure_eq_ok] at h
  case moveCore toCore sn rt =>
    simp only [Encoding.vfpMoveCore, bind_eq_ok, pure_eq_ok] at h
    obtain ⟨n, -, t, -, rfl⟩ := h
    simp [Word.conditionBits, Encoding.condition, flag, BitVec.extractLsb'_or]
  case movePair toCore p m rt rt2 =>
    obtain ⟨⟨⟩, -, s, -, h⟩ := h
    simp only [Encoding.vfpMovePair, bind_eq_ok, pure_eq_ok] at h
    obtain ⟨t2, -, t, -, rfl⟩ := h
    simp [Word.conditionBits, Encoding.condition, flag, BitVec.extractLsb'_or]
  case moveScalar dd index rt =>
    simp only [Encoding.vfpMoveScalar, bind_eq_ok, pure_eq_ok] at h
    obtain ⟨⟨⟩, -, d, -, t, -, rfl⟩ := h
    simp [Word.conditionBits, Encoding.condition, BitVec.extractLsb'_or]
  case moveImmediate p d imm8 =>
    obtain ⟨s, -, rfl⟩ := h
    simp [Word.conditionBits, Encoding.vfpMoveImmediate, Encoding.condition, flag,
      BitVec.extractLsb'_or]
  case transfer load p d a =>
    obtain ⟨s, -, h⟩ := h
    exact Encoding.vfpLoadStore_conditionBits h
  case transferSingles load mode base first last =>
    obtain ⟨⟨⟩, -, s, -, h⟩ := h
    refine Encoding.vfpBlockTransfer_conditionBits ?_ h
    have few := (last.number - first.number).isLt
    bv_omega
  case transferDoubles load mode base first count =>
    obtain ⟨⟨⟩, few, ⟨⟩, -, s, -, h⟩ := h
    refine Encoding.vfpBlockTransfer_conditionBits ?_ h
    have few := (require_eq_ok.mp few).2
    rw [BitVec.toNat_ofNat]
    omega
  case readStatus rt =>
    simp only [Encoding.vfpReadStatus, bind_eq_ok, pure_eq_ok] at h
    obtain ⟨t, -, rfl⟩ := h
    simp [Word.conditionBits, Encoding.condition, BitVec.extractLsb'_or]
  case binary op p d n m =>
    obtain ⟨n, -, d, -, m, -, rfl⟩ := h
    exact Encoding.vfpData_conditionBits (by cases op <;> rfl)
  case unary op p d m =>
    obtain ⟨d, -, m, -, rfl⟩ := h
    exact Encoding.vfpData_conditionBits (by cases op <;> rfl)
  case compareZero p d =>
    obtain ⟨d, -, rfl⟩ := h
    exact Encoding.vfpData_conditionBits rfl
  case narrow sd dm =>
    obtain ⟨d, -, m, -, rfl⟩ := h
    exact Encoding.vfpData_conditionBits rfl
  case widen dd sm =>
    obtain ⟨d, -, m, -, rfl⟩ := h
    exact Encoding.vfpData_conditionBits rfl
  case toInteger signed sd p m =>
    obtain ⟨d, -, m, -, rfl⟩ := h
    exact Encoding.vfpData_conditionBits (by cases signed <;> rfl)
  case ofInteger signed p d sm =>
    obtain ⟨d, -, m, -, rfl⟩ := h
    exact Encoding.vfpData_conditionBits (by cases signed <;> rfl)

/-- Every word carries the condition of its instruction, if that can have another than `AL`. -/
theorem Predicated.conditionBits_eq {p : Predicated} (h : p.encode = .ok w)
    (free : p.instruction.isUnconditional = false) : w.conditionBits = p.condition.bits := by
  obtain ⟨c, i⟩ := p
  cases i with
  | core i =>
    refine CoreInstruction.conditionBits_eq h ?_
    rintro rfl
    cases free
  | float i => exact FloatInstruction.conditionBits_eq h
  | vector i => cases free

/-- Vector instructions have words under `AL` only. -/
theorem VectorInstruction.always_of_encode {i : VectorInstruction} (h : i.encode c = .ok w) :
    c = .al := by
  cases i with
  | lanes op size qd qn qm =>
    obtain ⟨⟨⟩, -, h⟩ := bind_eq_ok.mp h
    obtain ⟨⟨⟩, always, -⟩ := bind_eq_ok.mp h
    exact require_eq_ok.mp always
  | quad | unary | duplicate | table =>
    obtain ⟨⟨⟩, always, -⟩ := bind_eq_ok.mp h
    exact require_eq_ok.mp always

/-- What is issued under `AL` only has no word under another condition. -/
theorem Instruction.always_of_encode {i : Instruction} (only : i.isUnconditional)
    (h : i.encode c = .ok w) : c = .al := by
  cases i with
  | core i =>
    cases i with
    | clearExclusive | breakpoint =>
      obtain ⟨⟨⟩, always, -⟩ := bind_eq_ok.mp h
      exact require_eq_ok.mp always
    | _ => cases only
  | float i => cases only
  | vector i => exact VectorInstruction.always_of_encode h

private theorem isOk_bind {ε α β : Type} {x : Except ε α} {f g : α → Except ε β}
    (same : ∀ a, (f a).isOk = (g a).isOk) : (x >>= f).isOk = (x >>= g).isOk := by
  cases x with
  | error e => rfl
  | ok a => exact same a

private theorem isOk_pure {ε α : Type} {a b : α} :
    (pure a : Except ε α).isOk = (pure b : Except ε α).isOk := rfl

variable {d : Condition}

/-- Whether a core instruction has a word does not depend on the condition. -/
theorem CoreInstruction.isOk_encode {i : CoreInstruction}
    (free : (Instruction.core i).isUnconditional = false) :
    (i.encode c).isOk = (i.encode d).isOk := by
  cases i
  case breakpoint | clearExclusive => cases free
  case nop => simp only [encode, Except.isOk, Except.toBool]
  all_goals
    simp only [encode, Encoding.dataProcessing, Encoding.moveWide, Encoding.countLeadingZeros,
      Encoding.multiply, Encoding.divide, Encoding.loadStore, Encoding.loadStoreMisc,
      Encoding.blockTransfer, Encoding.loadExclusive, Encoding.storeExclusive, Encoding.branch,
      Encoding.branchExchange]
    repeat' first
      | with_reducible exact isOk_pure
      | with_reducible refine isOk_bind fun _ ↦ ?_

/-- Neither does it for a VFP instruction. -/
theorem FloatInstruction.isOk_encode {i : FloatInstruction} :
    (i.encode c).isOk = (i.encode d).isOk := by
  cases i
  all_goals
    simp only [encode, Encoding.vfpMoveCore, Encoding.vfpMovePair, Encoding.vfpMoveScalar,
      Encoding.vfpLoadStore, Encoding.vfpBlockTransfer, Encoding.vfpReadStatus]
    repeat' first
      | with_reducible exact isOk_pure
      | with_reducible refine isOk_bind fun _ ↦ ?_

/-- What has a word under one condition has one under every other, if it can carry any. -/
theorem Instruction.exists_encode {i : Instruction} (free : i.isUnconditional = false)
    (h : i.encode c = .ok w) (d : Condition) : ∃ v, i.encode d = .ok v := by
  have same : (i.encode d).isOk = (i.encode c).isOk := by
    cases i with
    | core i => exact CoreInstruction.isOk_encode free
    | float i => exact FloatInstruction.isOk_encode
    | vector i => cases free
  rw [h] at same
  cases found : i.encode d with
  | ok v => exact ⟨v, rfl⟩
  | error m =>
    rw [found] at same
    cases same

end A32Assembler
