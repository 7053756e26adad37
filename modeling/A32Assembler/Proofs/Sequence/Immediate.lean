import A32Assembler.Proofs.Float.Unit
import A32Assembler.Proofs.Sequence.Constant
import A32Assembler.Proofs.Sequence.Expansion

/-!
# Arithmetic with constants

Addition of and comparison with a constant choose between the operation itself, its opposite on the
negated constant, and the constant in `IP`. The opposite of an operation on the negated constant
sets the same flags except for zero, where the carries differ, and for the least integer, where the
overflows differ. Both of these are rotated bytes and never negated, so the three choices agree.
-/

namespace A32Assembler

namespace Machine

/-- Subtracting the negative is adding, also for the flags, if the operand is neither zero nor the
least integer. -/
theorem addWithCarry_not_neg (x : Word) {y : Word} (nonzero : y ≠ 0) (not_least : y ≠ 0x80000000) :
    addWithCarry x (~~~(-y)) true = addWithCarry x y false := by
  have less : ~~~(-y) = y - 1 := by bv_omega
  have natural : (~~~(-y)).toNat + 1 = y.toNat := by bv_omega
  have signed : (~~~(-y)).toInt + 1 = y.toInt := by
    rw [less, BitVec.toInt_eq_toNat_cond, BitVec.toInt_eq_toNat_cond]
    bv_omega
  have sum : x + ~~~(-y) + 1#32 = x + y + 0#32 := by bv_omega
  have carries : x.toNat + (~~~(-y)).toNat + 1 = x.toNat + y.toNat + 0 := by omega
  have overflows : x.toInt + (~~~(-y)).toInt + 1 = x.toInt + y.toInt + 0 := by omega
  simp only [addWithCarry, BitVec.ofBool_true, BitVec.ofBool_false, Bool.toNat_true,
    Bool.toNat_false, Nat.cast_one, Nat.cast_zero, carries, overflows]
  exact congrArg (fun sum ↦ Outcome.mk sum _ (decide (sum.toInt ≠ _))) sum

end Machine

open Machine

/-- Neither a constant nor its negation has an operand. -/
def Word.NeedsScratch (value : Word) : Prop := ¬ value.IsRotatedByte ∧ ¬ (-value).IsRotatedByte

/-- What has no operand is neither zero nor the least integer. -/
theorem Operand.ne_of_ofValue?_eq_none {value : Word} (missing : ofValue? value = none) :
    value ≠ 0 ∧ value ≠ 0x80000000 := by
  constructor <;>
  · rintro rfl
    revert missing
    decide

namespace Sequence

variable {u : FloatUnit} {c : Condition} {setFlags : Bool} {rd rn : Register} {value : Word}
  {direct opposite : Operand → CoreInstruction} {m : Misuse}

/-- The three ways of an operation with a constant: on the operand for it, as the opposite operation
on the operand for its negation, and through `IP`, which must not be the other operand. -/
def withConstant (c : Condition) (direct opposite : Operand → CoreInstruction) (rn : Register)
    (m : Misuse) (value : Word) : Sequence :=
  match Operand.ofValue? value with
  | some o => issueCore c [direct o]
  | none =>
    match Operand.ofValue? (-value) with
    | some o => issueCore c [opposite o]
    | none => guarded (rn ≠ .ip) m (issueCore c (constant .ip value ++ [direct (.register .ip)]))

/-- Addition of a constant goes one of these ways, with subtraction as its opposite. -/
theorem addImmediate_eq : addImmediate c setFlags rd rn value =
    withConstant c (.arithmetic .add setFlags rd rn) (.arithmetic .sub setFlags rd rn) rn
      .additionScratch value := rfl

/-- So does comparison with a constant; its opposite compares with the negation. -/
theorem compareImmediate_eq : compareImmediate c rn value =
    withConstant c (.compare .cmp rn) (.compare .cmn rn) rn .comparisonScratch value := rfl

/-- All three ways take at least one instruction. -/
theorem withConstant_ne_nil : withConstant c direct opposite rn m value ≠ [] := by
  unfold withConstant
  split
  · simp [issueCore, issue]
  split
  · simp [issueCore, issue]
  · unfold guarded
    split <;> simp [issueCore, issue]

/-- None of the ways takes more than three. -/
theorem length_withConstant_le : (withConstant c direct opposite rn m value).length ≤ 3 := by
  unfold withConstant
  split
  · exact Nat.le_of_ble_eq_true rfl
  split
  · exact Nat.le_of_ble_eq_true rfl
  · unfold guarded
    split
    · rw [issueCore, issue, List.length_map, List.length_map, List.length_append]
      exact Nat.add_le_add_right length_constant_le 1
    · exact Nat.le_of_ble_eq_true rfl

/-- `IP` is no way to an operand that is `IP` itself. -/
theorem words_withConstant_ip (scratch : value.NeedsScratch) :
    (withConstant c direct opposite .ip m value).words = .error m := by
  obtain ⟨none, none'⟩ := scratch
  rw [withConstant, Operand.ofValue?_eq_none.mpr none, Operand.ofValue?_eq_none.mpr none']
  rfl

/-- An operation with a constant has an effect if the operation has it on every operand for the
constant, the opposite operation on every operand for its negation, and if it does not matter to the
effect that `IP` was loaded before. -/
theorem withConstant_effect {e : State → State → Prop} (free : ¬ (rn = .ip ∧ value.NeedsScratch))
    (directly : ∀ o : Operand, (∃ x, o.encoding = .ok x) → o.canonical = o →
      (issueCore c [direct o]).HasEffect u fun s t ↦
        c.holds s.flags → (o.evaluate s.read s.flags.c).1 = value → e s t)
    (oppositely : ∀ o : Operand, (∃ x, o.encoding = .ok x) → o.canonical = o →
      (issueCore c [opposite o]).HasEffect u fun s t ↦
        c.holds s.flags → (o.evaluate s.read s.flags.c).1 = -value →
          value ≠ 0 → value ≠ 0x80000000 → e s t)
    (after : ∀ s r t : State, rn ≠ .ip → r.flags = s.flags → s.Keeps r [.ip] [] → e r t → e s t) :
    (withConstant c direct opposite rn m value).HasEffect u fun s t ↦ c.holds s.flags → e s t := by
  unfold withConstant
  split
  · next found =>
    obtain ⟨rotate, imm8, rfl, stands⟩ := Operand.exists_of_ofValue? found
    refine (directly _ ⟨_, rfl⟩ rfl).mono fun s t effect holds ↦ ?_
    exact effect holds (Operand.evaluate_of_immediateValue? stands _ _)
  next none =>
  split
  · next found =>
    obtain ⟨nonzero, not_least⟩ := Operand.ne_of_ofValue?_eq_none none
    obtain ⟨rotate, imm8, rfl, stands⟩ := Operand.exists_of_ofValue? found
    refine (oppositely _ ⟨_, rfl⟩ rfl).mono fun s t effect holds ↦ ?_
    exact effect holds (Operand.evaluate_of_immediateValue? stands _ _) nonzero not_least
  next none' =>
  have other : rn ≠ .ip := fun same ↦
    free ⟨same, Operand.ofValue?_eq_none.mp none, Operand.ofValue?_eq_none.mp none'⟩
  rw [guarded, if_pos other, issueCore, List.map_append, issue, List.map_append]
  have loads : (issueCore c (constant .ip value)).HasEffect u _ := constant_effect (by decide)
  refine loads.append (directly (.register .ip) ⟨_, rfl⟩ rfl) ?_
  intro s r t loaded effect holds
  obtain ⟨core, flags, keeps⟩ := loaded holds
  have read : r.read .ip = value := core
  exact after s r t other flags keeps (effect (by rwa [flags]) read)

/-- `rn + value` is in `rd`, with the flags of one addition if they are to be set, and only `IP` has
changed besides. -/
structure Added (setFlags : Bool) (rd rn : Register) (value : Word) (s t : State) : Prop where
  core : t.core rd = s.core rn + value
  flags : t.flags =
    if setFlags then (compute .add s.flags (s.core rn) (value, s.flags.c)).flags else s.flags
  keeps : s.Keeps t [rd, .ip] []

/-- The flags are those of comparing `rn` with `value`, and only `IP` has changed besides. -/
structure Compared (rn : Register) (value : Word) (s t : State) : Prop where
  flags : t.flags = (compute .cmp s.flags (s.core rn) (value, s.flags.c)).flags
  keeps : s.Keeps t [.ip] []

/-- An operation with the outcome of the addition adds. -/
theorem Added.of_outcome {op : ArithmeticOp} {o : Operand} {s : State} (hd : rd.number < 15)
    (hn : rn.number < 15)
    (sums : compute op.opcode s.flags (s.core rn) (o.evaluate s.read s.flags.c) =
      compute .add s.flags (s.core rn) (value, s.flags.c)) :
    Added setFlags rd rn value s ((s.process op.opcode setFlags rn o).2.put rd
      (compute op.opcode s.flags (s.core rn) (o.evaluate s.read s.flags.c)).value) := by
  have rd_pc := Register.ne_pc hd
  rw [State.process, State.read_of_ne (Register.ne_pc hn), sums, value_compute_add]
  constructor
  · rw [State.core_put rd_pc, if_neg rd_pc, if_pos rfl]
  · cases setFlags <;> simp
  · have result : ∀ r : State, r.Keeps (r.put rd (s.core rn + value)) [rd, .ip] [] :=
      fun r ↦ (State.keeps_put rd_pc).mono (by simp) (by simp)
    cases setFlags with
    | false => exact result s
    | true => exact (State.keeps_flags.mono (by simp) (by simp)).trans (result _)

/-- Adding a constant, unless it needs `IP` and is added to `IP`. -/
theorem addImmediate_effect (hd : rd.number < 15) (hn : rn.number < 15)
    (free : ¬ (rn = .ip ∧ value.NeedsScratch)) :
    (addImmediate c setFlags rd rn value).HasEffect u fun s t ↦
      c.holds s.flags → Added setFlags rd rn value s t := by
  rw [addImmediate_eq]
  refine withConstant_effect free ?_ ?_ ?_
  · intro o has_word plain
    refine HasEffect.mono (.process .add setFlags hd hn has_word plain) ?_
    rintro s _ rfl holds stands
    rw [if_pos holds]
    exact .of_outcome hd hn (by simp only [ArithmeticOp.opcode, compute, stands])
  · intro o has_word plain
    refine HasEffect.mono (.process .sub setFlags hd hn has_word plain) ?_
    rintro s _ rfl holds stands nonzero not_least
    rw [if_pos holds]
    refine .of_outcome hd hn ?_
    simp only [ArithmeticOp.opcode, compute, stands, addWithCarry_not_neg _ nonzero not_least]
  · intro s r t other flags keeps added
    have same : r.core rn = s.core rn := keeps.core rn (Register.ne_pc hn) (by simpa using other)
    constructor
    · rw [added.core, same]
    · rw [added.flags, same, flags]
    · exact (keeps.mono (by simp) (by simp)).trans added.keeps

/-- Comparing with a constant, unless it needs `IP` and is compared with `IP`. -/
theorem compareImmediate_effect (hn : rn.number < 15) (free : ¬ (rn = .ip ∧ value.NeedsScratch)) :
    (compareImmediate c rn value).HasEffect u fun s t ↦
      c.holds s.flags → Compared rn value s t := by
  have keeps_advance (s : State) (f : Flags) :
      s.Keeps (State.advance { s with flags := f }) [.ip] [] :=
    (State.keeps_flags.mono (by simp) (by simp)).advance
  rw [compareImmediate_eq]
  refine withConstant_effect free ?_ ?_ ?_
  · intro o has_word plain
    refine HasEffect.mono (.compare .cmp hn has_word plain) ?_
    rintro s _ rfl holds stands
    rw [if_pos holds]
    refine ⟨?_, keeps_advance s _⟩
    simp only [State.flags_advance, ComparisonOp.opcode, compute, stands]
  · intro o has_word plain
    refine HasEffect.mono (.compare .cmn hn has_word plain) ?_
    rintro s _ rfl holds stands nonzero not_least
    rw [if_pos holds]
    refine ⟨?_, keeps_advance s _⟩
    have back : ~~~value = ~~~(-(-value)) := by rw [BitVec.neg_neg]
    simp only [State.flags_advance, ComparisonOp.opcode, compute, stands]
    rw [back, addWithCarry_not_neg _ (by bv_omega) (by bv_omega)]
  · intro s r t other flags keeps compared
    have same : r.core rn = s.core rn := keeps.core rn (Register.ne_pc hn) (by simpa using other)
    constructor
    · rw [compared.flags, same, flags]
    · exact keeps.trans compared.keeps

end Sequence

/-- Adding and comparing constants is exact, for every constant and all registers below `PC`, also
in the flags, unless the constant must go through `IP` and `IP` is the register that it is added to
or compared with; then it is a misuse. -/
theorem immediate_arithmetic_exact (u : FloatUnit) (a : Assembler) {rd rn : Register}
    (hd : rd.number < 15) (hn : rn.number < 15) (value : Word) :
    (rn = .ip ∧ value.NeedsScratch →
      (∀ setFlags, a.apply (.expand (.addImmediate setFlags rd rn value)) =
        .error (.misuse .additionScratch)) ∧
      a.apply (.expand (.compareImmediate rn value)) = .error (.misuse .comparisonScratch)) ∧
    (¬ (rn = .ip ∧ value.NeedsScratch) →
      (∀ setFlags, a.Expands u (.addImmediate setFlags rd rn value)
        (Sequence.Added setFlags rd rn value)) ∧
      a.Expands u (.compareImmediate rn value) (Sequence.Compared rn value)) := by
  constructor
  · rintro ⟨rfl, scratch⟩
    exact ⟨fun _ ↦ Sequence.apply_expand_error (Sequence.words_withConstant_ip scratch),
      Sequence.apply_expand_error (Sequence.words_withConstant_ip scratch)⟩
  · intro free
    exact ⟨fun _ ↦ .of_hasEffect (Sequence.addImmediate_effect hd hn free),
      .of_hasEffect (Sequence.compareImmediate_effect hn free)⟩

/-- The least integer is added to `IP`, but a constant without an operand is not. -/
theorem arithmetic_on_ip :
    (Assembler.start (.near .full)).Expands .reference (.addImmediate true .r0 .ip 0x80000000)
      (Sequence.Added true .r0 .ip 0x80000000) ∧
    (Assembler.start (.near .full)).apply (.expand (.addImmediate true .r0 .ip 0x12345678)) =
      .error (.misuse .additionScratch) := by
  have rotated : Word.IsRotatedByte 0x80000000 := ⟨1, 2, by decide⟩
  have scratch : Word.NeedsScratch 0x12345678 :=
    ⟨Operand.ofValue?_eq_none.mp (by decide), Operand.ofValue?_eq_none.mp (by decide)⟩
  have low : Register.r0.number < 15 ∧ Register.ip.number < 15 := by decide
  exact ⟨((immediate_arithmetic_exact .reference _ low.1 low.2 _).2
      fun ⟨_, other⟩ ↦ other.1 rotated).1 true,
    ((immediate_arithmetic_exact .reference _ low.1 low.2 _).1 ⟨rfl, scratch⟩).1 true⟩

end A32Assembler
