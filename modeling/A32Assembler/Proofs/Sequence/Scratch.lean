import A32Assembler.Proofs.Division.Fallback
import A32Assembler.Proofs.Float.Expansion
import A32Assembler.Proofs.Sequence.Access
import A32Assembler.Proofs.Sequence.Immediate
import A32Assembler.Proofs.Sequence.Predicated

/-!
# What scratch registers cost

The requests that go through `IP`, a scratch register of the caller or two temporary doubles, each
with what it is for. Whatever is accepted does what it is for on the values that its operands held
in the beginning, with two exceptions, which are accepted and should not be: a store of `IP` through
`IP`, and a division without a divider of two registers by way of one double.
-/

namespace A32Assembler

open Machine

namespace Sequence

/-- `dd` holds the number with pattern `value`, and only `scratch` and `IP` have changed besides. -/
structure Loaded (dd : DRegister) (value : Doubleword) (scratch : Register) (s t : State) :
    Prop where
  double : t.double dd = value
  flags : t.flags = s.flags
  keeps : s.Keeps t [scratch, .ip] [dd]

/-- `result` holds the quotient of `left` and `right` toward zero, and only `IP`, the two temporary
doubles and the flags have changed besides. -/
structure Divided (signed : Bool) (result left right : Register) (dl dr : DRegister)
    (s t : State) : Prop where
  core : t.core result = Word.quotient signed (s.core left) (s.core right)
  keeps : s.Keeps t [result, .ip] [dl, dr]

end Sequence

namespace Request

/-- What the requests are for that need registers beside their operands. -/
def contract? : Request → Option Contract
  | loadDouble dd value scratch => some (.always (Sequence.Loaded dd value scratch))
  | addImmediate setFlags rd rn value => some (.always (Sequence.Added setFlags rd rn value))
  | compareImmediate rn value => some (.always (Sequence.Compared rn value))
  | loadOffset size rd base offset => some ((OffsetTransfer.load size rd).contract base offset)
  | storeOffset size rd base offset => some ((OffsetTransfer.store size rd).contract base offset)
  | floatOffset load d base offset => some ((OffsetTransfer.float load d).contract base offset)
  | divide signed result left right dl dr =>
    some (.always (Sequence.Divided signed result left right dl dr))
  | _ => none

/-- An operand is overwritten before it is used, and nothing refuses it: `IP` is to be stored at an
offset that is out of reach, or two registers are divided by way of one double. -/
def LosesOperand (features : Features) : Request → Prop
  | storeOffset size rd _ offset => (OffsetTransfer.store size rd).Clashes offset
  | divide _ _ left right dl dr => features.integerDivision = false ∧ dl = dr ∧ left ≠ right
  | _ => False

end Request

section Fulfilment

variable {u : FloatUnit} {c : Condition} {ws : List Word} {k : Contract} {q : Sequence}

/-- A sequence with the agreed effect fulfils its contract. -/
theorem Machine.Contract.Met.of_hasEffect (spelled : q.words = .ok ws)
    (effect : q.HasEffect u fun s t ↦ c.holds s.flags → k.result s t) : k.Met u c ws := by
  obtain ⟨vs, spelled', runs⟩ := effect
  obtain rfl := Except.ok.inj (spelled.symm.trans spelled')
  intro s holds _
  obtain ⟨t, executes, done⟩ := runs s
  exact ⟨t, .of_executes executes, done holds⟩

end Fulfilment

namespace Sequence

variable {u : FloatUnit} {c : Condition} {ws : List Word} {rd rn scratch : Register}
  {dd : DRegister} {value : Doubleword} {x : Word} {direct opposite : Operand → CoreInstruction}
  {m : Misuse}

/-- With words, an operation with a constant does not need `IP` while `IP` is its operand. -/
theorem free_of_words (spelled : (withConstant c direct opposite rn m x).words = .ok ws) :
    ¬ (rn = .ip ∧ x.NeedsScratch) := by
  rintro ⟨rfl, needs⟩
  cases spelled.symm.trans (words_withConstant_ip needs)

/-- A double that one instruction loads. -/
theorem loaded_at_once {imm8 : Byte} {w : Word} (found : Double.immediate? value = some imm8)
    (encoded : (Instruction.float (.moveImmediate dd imm8)).encode c = .ok w) {s : State}
    (holds : c.holds s.flags) :
    ∃ t, Completes u [w] s t ∧ t.double dd = value ∧ t.flags = s.flags ∧ s.Keeps t [] [dd] := by
  have decoded := Decode.decodeAny_encode (i := .float (.moveImmediate dd imm8)) trivial encoded
  have performed : (Instruction.float (.moveImmediate dd imm8)).perform u s =
      some (s.writeDouble dd value).advance := by
    rw [← Double.expand_of_immediate? found]
    rfl
  refine ⟨_, .single decoded ((if_pos holds).trans performed) (by simp), by simp, rfl, ?_⟩
  exact State.keeps_writeDouble.advance

/-- A double that two core registers are moved to. -/
theorem loaded_by_pair {w : Word} (low : scratch.number < 15)
    (encoded : (Instruction.float (.movePair false dd scratch .ip)).encode c = .ok w) {s : State}
    (holds : c.holds s.flags) :
    ∃ t, Completes u [w] s t ∧ t.double dd = s.core .ip ++ s.core scratch ∧ t.flags = s.flags ∧
      s.Keeps t [] [dd] := by
  have decoded := Decode.decodeAny_encode (i := .float (.movePair false dd scratch .ip)) trivial
    encoded
  have others : .pc ∉ [scratch, .ip] := by
    simpa using ⟨(Register.ne_pc low).symm, by decide⟩
  have performed : (Instruction.float (.movePair false dd scratch .ip)).perform u s =
      some (s.writeDouble dd (s.core .ip ++ s.core scratch)).advance := if_neg others
  refine ⟨_, .single decoded ((if_pos holds).trans performed) (by simp), by simp, rfl, ?_⟩
  exact State.keeps_writeDouble.advance

/-- The two halves of a double in core registers. -/
theorem halves_effect (value : Doubleword) (low : scratch.number < 15) (other : scratch ≠ .ip) :
    (issueCore c (constant scratch (value.extractLsb' 0 32)) ++
      issueCore c (constant .ip (value.extractLsb' 32 32))).HasEffect u fun s t ↦
        c.holds s.flags → t.core .ip ++ t.core scratch = value ∧ t.flags = s.flags ∧
          s.Keeps t [scratch, .ip] [] := by
  refine HasEffect.append (constant_effect low) (constant_effect (by decide)) ?_
  intro s r t first second holds
  obtain ⟨lower, flags, keeps⟩ := first holds
  obtain ⟨upper, flags', keeps'⟩ := second (by rwa [flags])
  refine ⟨?_, flags'.trans flags, keeps.andThen keeps'⟩
  have whole : value.extractLsb' 32 32 ++ value.extractLsb' 0 32 = value.extractLsb' 0 64 :=
    BitVec.extractLsb'_append_extractLsb'_eq_extractLsb' rfl
  rw [upper, keeps'.core scratch (Register.ne_pc low) (by simpa using other), lower, whole,
    BitVec.extractLsb'_eq_self]

/-- Loading a double. -/
theorem loadDouble_met (low : scratch.number < 15)
    (spelled : (loadDouble c dd value scratch).words = .ok ws) :
    (Contract.always (Loaded dd value scratch)).Met u c ws := by
  intro s holds _
  unfold loadDouble at spelled
  split at spelled
  · next found =>
    obtain ⟨w, vs, encoded, rest, rfl⟩ := words_issue_cons.mp spelled
    cases words_issue_nil.mp rest
    obtain ⟨t, completes, double, flags, keeps⟩ := loaded_at_once (u := u) found encoded holds
    exact ⟨t, completes, double, flags, keeps.mono (List.nil_subset _) (List.Subset.refl _)⟩
  · obtain ⟨other, spelled⟩ := words_guarded.mp spelled
    obtain ⟨us, vs, first, last, rfl⟩ := words_append.mp spelled
    obtain ⟨w, vs, encoded, rest, rfl⟩ := words_issue_cons.mp last
    cases words_issue_nil.mp rest
    obtain ⟨us', first', runs⟩ := halves_effect (u := u) (c := c) value low other
    obtain rfl := Except.ok.inj (first.symm.trans first')
    obtain ⟨r, executes, halves⟩ := runs s
    obtain ⟨whole, flags, keeps⟩ := halves holds
    obtain ⟨t, completes, double, flags', keeps'⟩ :=
      loaded_by_pair (u := u) (s := r) low encoded (by rwa [flags])
    refine ⟨t, (Completes.of_executes executes).append completes, ?_⟩
    exact ⟨double.trans whole, flags'.trans flags,
      (keeps.andThen keeps').mono (by simp) (by simp)⟩

section Division

variable {signed : Bool} {result left right : Register} {dl dr : DRegister} {features : Features}

/-- What is checked of a division without a divider. -/
theorem divideByFloat_checks
    (spelled : (divideByFloat c signed result left right dl dr).words = .ok ws) :
    c = .al ∧ (result ≠ .ip ∧ left ≠ .ip ∧ right ≠ .ip) ∧ dl.number < 16 ∧ dr.number < 16 := by
  have bound {d : DRegister} {low : SRegister} (found : d.lowHalf = .ok low) : d.number < 16 := by
    by_contra outside
    cases found.symm.trans (if_neg outside)
  obtain ⟨always, spelled⟩ := words_guarded.mp spelled
  obtain ⟨apart, spelled⟩ := words_guarded.mp spelled
  obtain ⟨sl, low_l, spelled⟩ := words_withValue.mp spelled
  obtain ⟨sr, low_r, -⟩ := words_withValue.mp spelled
  exact ⟨always, apart, bound low_l, bound low_r⟩

/-- A division without a divider takes twelve instructions at most. -/
theorem length_divideByFloat_le :
    (divideByFloat c signed result left right dl dr).length ≤ 12 := by
  unfold divideByFloat guarded withValue
  repeat' split
  all_goals exact Nat.le_of_ble_eq_true rfl

variable (ieee : u.Ieee) (hres : result.number < 15) (hl : left.number < 15)
  (hr : right.number < 15)
include ieee hres hl hr

/-- Two registers by way of one double: the right one is divided by itself. -/
theorem exists_not_divided
    (spelled : (divideByFloat c signed result left right dr dr).words = .ok ws)
    (apart : left ≠ right) : ∃ s t, c.holds s.flags ∧ Completes u ws s t ∧
      t.core result ≠ Word.quotient signed (s.core left) (s.core right) := by
  obtain ⟨rfl, ⟨res_ip, left_ip, right_ip⟩, -, hdr⟩ := divideByFloat_checks spelled
  obtain ⟨vs, spelled', runs⟩ := divideByFloat_outcome (u := u) signed hres hl hr res_ip left_ip
    right_ip hdr hdr
  obtain rfl := Except.ok.inj (spelled.symm.trans spelled')
  -- zero divided by one
  let s : State :=
    ⟨fun q ↦ if q = right then 1 else 0, ⟨false, false, false, false⟩, fun _ ↦ 0, fun _ ↦ none⟩
  have zero : s.core left = 0 := if_neg apart
  have one : s.core right = 1 := if_pos rfl
  obtain ⟨t, executes, value, -⟩ := runs s
  refine ⟨s, t, rfl, .of_executes executes, fun divided ↦ ?_⟩
  have itself :
      u.toInteger signed (u.divide (u.ofInteger signed 1) (u.ofInteger signed 1)) = 1 := by
    rw [ieee.toInteger_divide signed 1 (by decide)]
    cases signed <;> rfl
  have wanted : t.core result = 0 := by
    rw [divided, zero, one]
    cases signed <;> rfl
  rw [dividend, if_pos rfl, one, if_neg (by decide), if_neg (by simp), itself] at value
  exact absurd (value.symm.trans wanted) (by decide)

/-- A division by way of doubles divides, unless two registers share one double. -/
theorem divideByFloat_met_iff
    (spelled : (divideByFloat c signed result left right dl dr).words = .ok ws) :
    (Contract.always (Divided signed result left right dl dr)).Met u c ws ↔
      ¬ (dl = dr ∧ left ≠ right) := by
  constructor
  · rintro met ⟨rfl, apart⟩
    obtain ⟨s, t, holds, completes, wrong⟩ := exists_not_divided ieee hres hl hr spelled apart
    have short : ws.length ≤ 12 := (length_words spelled).trans_le length_divideByFloat_le
    refine Contract.not_met (by omega) holds trivial completes (fun divided ↦ ?_) met
    exact wrong (Divided.core divided)
  · intro kept
    obtain ⟨rfl, ⟨res_ip, left_ip, right_ip⟩, hdl, hdr⟩ := divideByFloat_checks spelled
    have same : dividend left right dl dr = left := by
      unfold dividend
      split
      · next common => exact by_contra fun apart ↦ kept ⟨common, Ne.symm apart⟩
      · rfl
    refine .of_hasEffect spelled (HasEffect.mono (divideByFloat_outcome signed hres hl hr res_ip
      left_ip right_ip hdl hdr) ?_)
    rintro s t ⟨value, keeps⟩ -
    rw [same, quotient_of_fixes ieee] at value
    exact ⟨value, keeps⟩

end Division

end Sequence

variable {u : FloatUnit} {c : Condition} {ws : List Word} {features : Features}

open Sequence in
/-- The words of a request with a contract fulfil it, unless they lose an operand. -/
theorem Request.met_iff {r : Request} {k : Contract} (agreed : r.contract? = some k)
    (ieee : features.integerDivision = false → u.Ieee) (low : ∀ q ∈ r.cores, q.number < 15)
    (spelled : (r.sequence features c).words = .ok ws) :
    k.Met u c ws ↔ ¬ r.LosesOperand features := by
  have always {k : Contract} (met : k.Met u c ws) : k.Met u c ws ↔ ¬ False :=
    iff_of_true met id
  have not_pc {q : Register} (below : q.number < 15) : some q ≠ some .pc := by
    simpa using Register.ne_pc below
  cases r with cases agreed
  | loadDouble dd value scratch =>
    exact always (loadDouble_met (low scratch (by simp [cores])) spelled)
  | addImmediate setFlags rd rn value =>
    have effect : (Sequence.addImmediate c setFlags rd rn value).HasEffect u _ :=
      addImmediate_effect (low rd (by simp [cores])) (low rn (by simp [cores]))
        (free_of_words spelled)
    exact always (.of_hasEffect spelled effect)
  | compareImmediate rn value =>
    have effect : (Sequence.compareImmediate c rn value).HasEffect u _ :=
      compareImmediate_effect (low rn (by simp [cores])) (free_of_words spelled)
    exact always (.of_hasEffect spelled effect)
  | loadOffset size rd base offset =>
    exact OffsetTransfer.contract_met_iff (x := .load size rd) (low base (by simp [cores]))
      (not_pc (low rd (by simp [cores]))) spelled
  | storeOffset size rd base offset =>
    exact OffsetTransfer.contract_met_iff (x := .store size rd) (low base (by simp [cores]))
      (not_pc (low rd (by simp [cores]))) spelled
  | floatOffset load d base offset =>
    exact OffsetTransfer.contract_met_iff (x := .float load d) (low base (by simp [cores]))
      (Option.some_ne_none _).symm spelled
  | divide signed result left right dl dr =>
    have hres := low result (by simp [cores])
    have hl := low left (by simp [cores])
    have hr := low right (by simp [cores])
    rw [sequence, Sequence.divide] at spelled
    split at spelled
    · next hardware =>
      refine iff_of_true (.of_hasEffect spelled (HasEffect.mono
        (divideByHardware_effect c signed hres hl hr) ?_)) fun loses ↦ ?_
      · intro s t divided holds
        obtain ⟨value, keeps⟩ := divided holds
        exact ⟨value, keeps.mono (by simp) (by simp)⟩
      · rw [loses.1] at hardware
        cases hardware
    · next without =>
      have none : features.integerDivision = false := by simpa using without
      rw [divideByFloat_met_iff (ieee none) hres hl hr spelled]
      simp [LosesOperand, none]

/-- A request that goes through scratch registers and is accepted appends code that does what the
request is for, on what its operands held in the beginning, for all registers below `PC`; but a
store of `IP` that goes through `IP` does not, and neither does a division of two registers by way
of one double. -/
theorem scratch_keeps_operands (u : FloatUnit) {a b : Assembler} {r : Request} {k : Contract}
    {answer : Answer} (agreed : r.contract? = some k)
    (ieee : a.settings.features.integerDivision = false → u.Ieee)
    (low : ∀ q ∈ r.cores, q.number < 15) (done : a.apply (.expand r) = .ok (answer, b)) :
    ∃ ws, b = a.append ws ∧
      (k.Met u a.condition ws ↔ ¬ r.LosesOperand a.settings.features) := by
  simp only [Assembler.apply, liftMisuse_eq_ok, bind_eq_ok, pure_eq_ok, Prod.mk.injEq,
    Assembler.issueAll_eq_ok] at done
  obtain ⟨-, ⟨ws, spelled, rfl⟩, -, rfl⟩ := done
  exact ⟨ws, rfl, r.met_iff agreed ieee low spelled⟩

/-- A word is loaded into `IP` through `IP`, and a quotient replaces its dividend. -/
theorem far_load_and_division :
    (∃ b ws, (Assembler.start (.near .full)).apply (.expand (.loadOffset .word .ip .sp 4096)) =
        .ok (.nothing, b) ∧ b = (Assembler.start (.near .full)).append ws ∧
      ((OffsetTransfer.load .word .ip).contract .sp 4096).Met .reference .al ws) ∧
    ∃ b ws, (Assembler.start (.near ⟨false, true⟩)).apply
        (.expand (.divide true .r0 .r0 (.ofNat 1) ⟨0⟩ ⟨1⟩)) = .ok (.nothing, b) ∧
      b = (Assembler.start (.near ⟨false, true⟩)).append ws ∧
      (Contract.always (Sequence.Divided true .r0 .r0 (.ofNat 1) ⟨0⟩ ⟨1⟩)).Met .reference .al ws := by
  constructor
  · have accepted : ∃ b, (Assembler.start (.near .full)).apply
        (.expand (.loadOffset .word .ip .sp 4096)) = .ok (.nothing, b) := ⟨_, rfl⟩
    obtain ⟨b, done⟩ := accepted
    obtain ⟨ws, appended, met⟩ := scratch_keeps_operands .reference rfl (by nofun) (by decide) done
    exact ⟨b, ws, done, appended, met.mpr id⟩
  · have accepted : ∃ b, (Assembler.start (.near ⟨false, true⟩)).apply
        (.expand (.divide true .r0 .r0 (.ofNat 1) ⟨0⟩ ⟨1⟩)) = .ok (.nothing, b) := ⟨_, rfl⟩
    obtain ⟨b, done⟩ := accepted
    obtain ⟨ws, appended, met⟩ := scratch_keeps_operands .reference rfl
      (fun _ ↦ FloatUnit.ieee_reference) (by decide) done
    exact ⟨b, ws, done, appended, met.mpr fun loses ↦ absurd loses.2.1 (by decide)⟩

/-- What is lost: `IP` is stored through `IP`, and `R1` is divided by `R2` by way of `D0` alone.
Both are accepted. -/
theorem scratch_loses_operands :
    (∃ ws s t, (Assembler.start (.near .full)).apply (.expand (.storeOffset .word .ip .r0 4096)) =
        .ok (.nothing, (Assembler.start (.near .full)).append ws) ∧
      (OffsetTransfer.store .word .ip).Possible .r0 4096 s ∧ Completes .reference ws s t ∧
      s.memory.writeBlock (s.core .r0 + 4096) [s.core .ip] ≠ some t.memory) ∧
    ∃ ws s t, (Assembler.start (.near ⟨false, true⟩)).apply
        (.expand (.divide true .r0 (.ofNat 1) (.ofNat 2) ⟨0⟩ ⟨0⟩)) =
        .ok (.nothing, (Assembler.start (.near ⟨false, true⟩)).append ws) ∧
      Completes .reference ws s t ∧
      t.core .r0 ≠ Word.quotient true (s.core (.ofNat 1)) (s.core (.ofNat 2)) := by
  constructor
  · have accepted : ∃ ws, ((Request.storeOffset .word .ip .r0 4096).sequence .full .al).words =
        .ok ws := ⟨_, rfl⟩
    obtain ⟨ws, spelled⟩ := accepted
    have low : Register.r0.number < 15 := by decide
    have clash : (OffsetTransfer.store .word .ip).Clashes 4096 := ⟨rfl, by decide⟩
    obtain ⟨s, t, -, possible, completes, wrong⟩ :=
      OffsetTransfer.exists_not_stored (u := .reference) low spelled clash
    exact ⟨ws, s, t, Sequence.apply_expand spelled, possible, completes, wrong⟩
  · have accepted : ∃ ws, (Sequence.divideByFloat .al true .r0 (.ofNat 1) (.ofNat 2) ⟨0⟩
        ⟨0⟩).words = .ok ws := ⟨_, rfl⟩
    obtain ⟨ws, spelled⟩ := accepted
    obtain ⟨s, t, -, completes, wrong⟩ := Sequence.exists_not_divided FloatUnit.ieee_reference
      (by decide) (by decide) (by decide) spelled (by decide)
    exact ⟨ws, s, t, Sequence.apply_expand spelled, completes, wrong⟩

end A32Assembler
