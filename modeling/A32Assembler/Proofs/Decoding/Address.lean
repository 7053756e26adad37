import A32Assembler.Proofs.Decoding.Transfer
import A32Assembler.Proofs.Machine.Address

/-!
# Addresses without room for a shift

A halfword, signed or doubleword transfer adds its register distance as it is. Its fields are read
back as the base, the direction, the indexing and the distance of the address, with one exception: a
right shift by the width of a word is stored like no shift at all.
-/

namespace A32Assembler

open Machine

/-- The address that the fields of a halfword, signed or doubleword transfer stand for. -/
def Decode.miscAddress? (x : Word) : Option Address :=
  address? x (if bit x 22 then .immediate ((x.extractLsb' 8 4 ++ x.extractLsb' 0 4).setWidth 32)
    else .register (register x 0) .lsl 0)

namespace Address

/-- The addresses that can be built. -/
inductive Constructible : Address → Prop
  | indexed (base : Register) (offset : Word) (mode : AddressMode) :
    Constructible (.indexed base offset mode)
  | ofRegister (base rm : Register) (mode : AddressMode) : Constructible (.ofRegister base rm mode)
  | ofShifted {base rm : Register} {shift : Shift} {amount : Nat} {mode : AddressMode} {a : Address}
    (built : ofShifted base rm shift amount mode = .ok a) : Constructible a

/-- Its registers exist. -/
def Named (a : Address) : Prop :=
  a.base.number < 16 ∧ ∀ rm shift field, a.displacement = .register rm shift field → rm.number < 16

/-- Fields stand for the address: they give the same base and the same mode, and in every state the
same distance. -/
def SpelledBy (a : Address) (x : Word) : Prop :=
  ∃ b, Decode.miscAddress? x = some b ∧ b.base = a.base ∧ b.mode = a.mode ∧
    ∀ s, b.displacement.distance s = a.displacement.distance s

/-- Its distance is a register shifted by the width of a word. -/
def ShiftsWord (a : Address) : Prop :=
  ∃ base rm shift mode, ofShifted base rm shift 32 mode = .ok a

variable {a : Address} {base rm : Register} {shift : Shift} {amount : Nat} {mode : AddressMode}
  {x : Word} {s : State}

/-- A shifted address holds its amount in five bits. -/
theorem ofShifted_eq_ok :
    ofShifted base rm shift amount mode = .ok a ↔
      shift.Accepts amount ∧ a = ⟨base, .register rm shift (BitVec.ofNat 5 amount), mode⟩ := by
  simp only [ofShifted, Shift.amountField, bind_eq_ok, pure_eq_ok]
  by_cases accepts : shift.Accepts amount
  · simp [accepts, eq_comm]
  · simp [accepts]

/-- Only right shifts that do not rotate can be by the width of a word. -/
theorem shiftsWord_iff :
    a.ShiftsWord ↔
      ∃ rm, a.displacement = .register rm .lsr 0 ∨ a.displacement = .register rm .asr 0 := by
  constructor
  · rintro ⟨base, rm, shift, mode, built⟩
    obtain ⟨accepts, rfl⟩ := ofShifted_eq_ok.mp built
    refine ⟨rm, ?_⟩
    cases shift with
    | lsl => simp [Shift.Accepts] at accepts
    | lsr => exact .inl rfl
    | asr => exact .inr rfl
    | ror => simp [Shift.Accepts] at accepts
  · obtain ⟨base, displacement, mode⟩ := a
    rintro ⟨rm, rfl | rfl⟩
    · exact ⟨base, rm, .lsr, mode, rfl⟩
    · exact ⟨base, rm, .asr, mode, rfl⟩

/-- The fields are read back as the address without its shift. -/
theorem miscAddress?_encodingMisc (h : a.encodingMisc = .ok x) :
    Decode.miscAddress? x = some a.unshifted := by
  obtain ⟨base, displacement, indexing, down⟩ := a
  cases displacement with
  | immediate m =>
    obtain ⟨b, hi, lo, rfl, rfl, rfl⟩ := Decode.encodingMisc_immediate h
    cases indexing <;>
      simp [Decode.miscAddress?, Decode.address?, Decode.indexing?, AddressMode.bits, Decode.bit,
        Decode.register, unshifted, Displacement.unshifted, Word.flag, BitVec.extractLsb'_or]
  | register rm shift field =>
    simp only [encodingMisc, bind_eq_ok, pure_eq_ok] at h
    obtain ⟨⟨⟩, -, m, hm, o, rfl, b, hb, rfl⟩ := h
    obtain rfl := Register.code_eq_ok.mp hm
    obtain rfl := Register.code_eq_ok.mp hb
    cases indexing <;>
      simp [Decode.miscAddress?, Decode.address?, Decode.indexing?, AddressMode.bits, Decode.bit,
        Decode.register, unshifted, Displacement.unshifted, Word.flag, BitVec.extractLsb'_or]

/-- So they stand for the address exactly if the distance is the same without its shift. -/
theorem spelledBy_iff (h : a.encodingMisc = .ok x) :
    a.SpelledBy x ↔ ∀ s, a.unshifted.displacement.distance s = a.displacement.distance s := by
  constructor
  · rintro ⟨b, hb, -, -, same⟩
    obtain rfl := Option.some.inj ((miscAddress?_encodingMisc h).symm.trans hb)
    exact same
  · intro same
    exact ⟨a.unshifted, miscAddress?_encodingMisc h, rfl, rfl, same⟩

/-- The amounts with an empty field are none and the width of a word. -/
theorem amountField_eq_zero_iff (accepts : shift.Accepts amount) :
    BitVec.ofNat 5 amount = 0 ↔ amount = 0 ∨ amount = 32 := by
  have small : amount ≤ 32 := by
    cases shift with
    | lsl => exact Nat.le_succ_of_le accepts
    | lsr => exact accepts.2
    | asr => exact accepts.2
    | ror => exact Nat.le_succ_of_le accepts.2
  constructor
  · intro zero
    have zero : amount % 2 ^ 5 = 0 := by simpa using congrArg BitVec.toNat zero
    omega
  · rintro (rfl | rfl) <;> rfl

/-- An address with an empty amount field whose distance is not shifted by the width of a word is
not shifted at all. -/
theorem shift_eq_lsl (built : a.Constructible) (within : ¬ a.ShiftsWord)
    (distance : a.displacement = .register rm shift 0) : shift = .lsl := by
  cases built with
  | indexed => simp [indexed] at distance
  | ofRegister base rm mode => simp_all [ofRegister]
  | ofShifted built =>
    rename_i rm' shift' amount mode
    obtain ⟨accepts, rfl⟩ := ofShifted_eq_ok.mp built
    simp only [Displacement.register.injEq] at distance
    obtain ⟨rfl, rfl, field⟩ := distance
    rcases (amountField_eq_zero_iff accepts).mp field with rfl | rfl
    · cases shift' <;> simp [Shift.Accepts] at accepts
      rfl
    · exact absurd ⟨_, _, _, _, built⟩ within

/-- Shifting a register by the width of a word changes its distance in some state. -/
theorem exists_distance_ne (distance : a.displacement = .register rm .lsr 0 ∨
    a.displacement = .register rm .asr 0) :
    ∃ s, a.unshifted.displacement.distance s ≠ a.displacement.distance s := by
  -- the register reads as one, also if it is the program counter
  let s : State :=
    { core := fun r ↦ if r = .pc then -7 else 1, flags := ⟨false, false, false, false⟩
      double := fun _ ↦ 0, memory := fun _ ↦ none }
  have one : s.read rm = 1 := by
    by_cases counter : rm = .pc
    · rw [counter]
      exact (show (-7 : Word) + 8 = 1 by decide)
    · rw [State.read_of_ne counter]
      exact if_neg counter
  refine ⟨s, ?_⟩
  have before : a.unshifted.displacement.distance s = 1 := by
    rcases distance with distance | distance <;>
      simpa [unshifted, distance, Displacement.unshifted, Displacement.distance, Operand.canonical,
        Operand.evaluate] using one
  have after : a.displacement.distance s = 0 := by
    rcases distance with distance | distance <;>
      simp [distance, Displacement.distance, Operand.canonical, Operand.evaluate, one,
        Shift.amount, Shift.apply]
  rw [before, after]
  decide

/-- An address with an empty amount field has fields if its registers exist. -/
theorem encodingMisc_of_empty (base_named : base.number < 16) (rm_named : rm.number < 16) :
    ∃ x, encodingMisc ⟨base, .register rm shift 0, mode⟩ = .ok x := by
  simp only [encodingMisc, bind_eq_ok, pure_eq_ok]
  exact ⟨_, .unit, rfl, _, if_pos rm_named, _, rfl, _, if_pos base_named, rfl⟩

/-- An address whose distance is shifted has fields only if the amount field is empty. -/
theorem encodingMisc_eq_error {field : BitVec 5} (used : field ≠ 0) :
    encodingMisc ⟨base, .register rm shift field, mode⟩ = .error .miscShift := by
  simp only [encodingMisc, require, if_neg used]
  rfl

/-- Fields of an address stand for it whenever they are given, exactly if its distance is not
shifted by the width of a word; a shift by any other amount is refused. -/
theorem spelledBy_encodingMisc (built : a.Constructible) (named : a.Named) :
    ((∀ x, a.encodingMisc = .ok x → a.SpelledBy x) ↔ ¬ a.ShiftsWord) ∧
    ∀ base rm shift amount mode, ofShifted base rm shift amount mode = .ok a →
      amount ≠ 0 → amount ≠ 32 → a.encodingMisc = .error .miscShift := by
  refine ⟨⟨fun faithful shifts ↦ ?_, fun within x h ↦ ?_⟩, ?_⟩
  · obtain ⟨rm, distance⟩ := shiftsWord_iff.mp shifts
    have encoded : ∃ x, a.encodingMisc = .ok x := by
      obtain ⟨base, displacement, mode⟩ := a
      rcases distance with rfl | rfl
      · exact encodingMisc_of_empty named.1 (named.2 rm .lsr 0 rfl)
      · exact encodingMisc_of_empty named.1 (named.2 rm .asr 0 rfl)
    obtain ⟨x, h⟩ := encoded
    obtain ⟨s, differ⟩ := exists_distance_ne distance
    exact differ ((spelledBy_iff h).mp (faithful x h) s)
  · rw [spelledBy_iff h]
    intro s
    obtain ⟨base, displacement, mode⟩ := a
    cases displacement with
    | immediate m => rfl
    | register rm shift field =>
      by_cases empty : field = 0
      · subst empty
        obtain rfl := shift_eq_lsl built within rfl
        rfl
      · rw [encodingMisc_eq_error empty] at h
        cases h
  · intro base rm shift amount mode built shifted within
    obtain ⟨accepts, rfl⟩ := ofShifted_eq_ok.mp built
    exact encodingMisc_eq_error fun empty ↦
      ((amountField_eq_zero_iff accepts).mp empty).elim shifted within

/-- Two hundred bytes below the stack pointer, with the stack pointer set to them. -/
theorem spelledBy_encodingMisc_below_sp :
    ∃ x, (indexed .sp (-200) ⟨.preIndex, false⟩).encodingMisc = .ok x ∧
      (indexed .sp (-200) ⟨.preIndex, false⟩).SpelledBy x := by
  have within : ¬ (indexed .sp (-200) ⟨.preIndex, false⟩).ShiftsWord := by
    rw [shiftsWord_iff]
    simp [indexed]
  have named : (indexed .sp (-200) ⟨.preIndex, false⟩).Named := ⟨by decide, by simp [indexed]⟩
  exact ⟨_, rfl, (spelledBy_encodingMisc (.indexed _ _ _) named).1.mpr within _ rfl⟩

/-- A logical right shift by the width of a word is written like the register itself, which gives
another distance. -/
theorem misc_drops_lsr_width :
    ∃ a x, ofShifted .r0 .lr .lsr 32 .offset = .ok a ∧ a.encodingMisc = .ok x ∧
      (ofRegister .r0 .lr .offset).encodingMisc = .ok x ∧ ¬ a.SpelledBy x := by
  refine ⟨⟨.r0, .register .lr .lsr 0, .offset⟩, _, rfl, rfl, rfl, ?_⟩
  rw [spelledBy_iff rfl]
  intro same
  obtain ⟨s, differ⟩ := exists_distance_ne
    (a := ⟨.r0, .register .lr .lsr 0, .offset⟩) (.inl rfl)
  exact differ (same s)

end Address

end A32Assembler
