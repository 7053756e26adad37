import A32Assembler.Proofs.Branch.Landing
import A32Assembler.Proofs.Machine.Predicated
import A32Assembler.Proofs.Sequence.Conditions
import A32Assembler.Proofs.Sequence.Offset

/-!
# Sequences under a condition

No sequence under one condition sets the flags before its last instruction. So a sequence under a
condition is executed as a whole, with the effect that it has under `AL`, or passed over as a whole.
The same goes for far branches, wherever they are turned.
-/

namespace A32Assembler

open Machine

/-- An instruction that can carry every condition and is read back as it is. -/
structure Instruction.Regular (i : Instruction) : Prop where
  formed : i.Formed
  plain : i.plain = i
  free : i.isUnconditional = false

/-- The core registers that a request names as operands. -/
def Request.cores : Request → List Register
  | loadImmediate rd _ => [rd]
  | loadDouble _ _ scratch => [scratch]
  | addImmediate _ rd rn _ => [rd, rn]
  | compareImmediate rn _ => [rn]
  | loadOffset _ rd base _ | storeOffset _ rd base _ => [rd, base]
  | floatOffset _ _ base _ | loadQuad _ base _ => [base]
  | divide _ result left right _ _ => [result, left, right]
  | loadSingle .. | reciprocal .. | rootReciprocal .. | root .. | quotient .. => []

namespace Sequence

variable {u : FloatUnit} {c : Condition} {ws vs : List Word} {f g : Condition → Sequence}
  {is : List Instruction} {i : Instruction}

/-- The same regular instructions are issued under every condition, steady ones but for the last. -/
def Predicable (u : FloatUnit) (f : Condition → Sequence) : Prop :=
  ∃ is, (∀ d, f d = issue d is) ∧ (∀ i ∈ is, i.Regular) ∧ ∀ i ∈ is.dropLast, i.Steady u

/-- The same regular and steady instructions are issued under every condition. -/
def Steadily (u : FloatUnit) (f : Condition → Sequence) : Prop :=
  ∃ is, (∀ d, f d = issue d is) ∧ ∀ i ∈ is, i.Regular ∧ i.Steady u

/-- No instructions. -/
theorem Steadily.nil : Steadily u fun _ ↦ [] := ⟨[], fun _ ↦ rfl, by simp⟩

/-- Sequences in a row. -/
theorem Steadily.append (first : Steadily u f) (second : Steadily u g) :
    Steadily u fun d ↦ f d ++ g d := by
  obtain ⟨is, issues, steady⟩ := first
  obtain ⟨js, issues', steady'⟩ := second
  refine ⟨is ++ js, fun d ↦ ?_, fun i mem ↦ ?_⟩
  · simp only [issues, issues', issue, List.map_append]
  · exact (List.mem_append.mp mem).elim (steady i) (steady' i)

/-- One more instruction, which may do as it likes. -/
theorem Steadily.last (first : Steadily u f) (regular : i.Regular) :
    Predicable u fun d ↦ f d ++ issue d [i] := by
  obtain ⟨is, issues, steady⟩ := first
  refine ⟨is ++ [i], fun d ↦ ?_, fun j mem ↦ ?_, fun j mem ↦ ?_⟩
  · simp only [issues, issue, List.map_append]
  · obtain mem | mem := List.mem_append.mp mem
    · exact (steady j mem).1
    · rwa [List.mem_singleton.mp mem]
  · rw [List.dropLast_concat] at mem
    exact (steady j mem).2

/-- One instruction. -/
theorem Predicable.single (regular : i.Regular) : Predicable u fun d ↦ issue d [i] :=
  Steadily.nil.last regular

/-- Steady instructions may be last, too. -/
theorem Steadily.predicable (steadily : Steadily u f) : Predicable u f := by
  obtain ⟨is, issues, steady⟩ := steadily
  exact ⟨is, issues, fun i mem ↦ (steady i mem).1,
    fun i mem ↦ (steady i (List.dropLast_subset is mem)).2⟩

/-- Regular instructions are read back from their words. -/
theorem decodes_of_words (regular : ∀ i ∈ is, i.Regular) (spelled : (issue c is).words = .ok ws) :
    Decodes c ws is := by
  induction is generalizing ws with
  | nil =>
    rw [words_issue_nil.mp spelled]
    exact .nil
  | cons i is ih =>
    obtain ⟨w, ws, encoded, rest, rfl⟩ := words_issue_cons.mp spelled
    obtain ⟨first, others⟩ := List.forall_mem_cons.mp regular
    have decoded := Decode.decodeAny_encode first.formed encoded
    rw [first.plain] at decoded
    exact .cons decoded (ih others rest)

/-- Regular instructions with words under one condition have words under every other. -/
theorem exists_words (regular : ∀ i ∈ is, i.Regular) (spelled : (issue c is).words = .ok ws)
    (d : Condition) : ∃ vs, (issue d is).words = .ok vs := by
  induction is generalizing ws with
  | nil => exact ⟨[], rfl⟩
  | cons i is ih =>
    obtain ⟨w, ws, encoded, rest, rfl⟩ := words_issue_cons.mp spelled
    obtain ⟨first, others⟩ := List.forall_mem_cons.mp regular
    obtain ⟨v, encoded'⟩ := Instruction.exists_encode first.free encoded d
    obtain ⟨vs, rest'⟩ := ih others rest
    exact ⟨v :: vs, words_issue_cons.mpr ⟨v, vs, encoded', rest', rfl⟩⟩

/-- What is predicable has words under `AL`, too, and does all or nothing of what they do. -/
theorem Predicable.allOrNothing (predicable : Predicable u f) (spelled : (f c).words = .ok ws) :
    ∃ vs, (f .al).words = .ok vs ∧ AllOrNothing u c ws vs := by
  obtain ⟨is, issues, regular, steady⟩ := predicable
  rw [issues] at spelled
  obtain ⟨vs, always⟩ := exists_words regular spelled .al
  refine ⟨vs, (issues .al).symm ▸ always, ?_⟩
  exact Machine.allOrNothing (decodes_of_words regular spelled) (decodes_of_words regular always)
    steady

section Instructions

variable {rd rn : Register} {o : Operand} {value : Word}

/-- A result that leaves the flags alone. -/
theorem steady_arithmetic {op : ArithmeticOp} (other : rd ≠ .pc) :
    (Instruction.core (.arithmetic op false rd rn o)).Steady u := by
  intro s t performed
  simp only [Instruction.perform, CoreInstruction.perform, CoreInstruction.execute, State.settle,
    State.process, Bool.false_eq_true, false_and, if_false, Option.some.injEq] at performed
  subst performed
  simp [State.core_put other]

/-- A move that leaves the flags alone. -/
theorem steady_move {op : MoveOp} (other : rd ≠ .pc) :
    (Instruction.core (.move op false rd o)).Steady u := by
  intro s t performed
  simp only [Instruction.perform, CoreInstruction.perform, CoreInstruction.execute, State.settle,
    State.process, Bool.false_eq_true, false_and, if_false, Option.some.injEq] at performed
  subst performed
  simp [State.core_put other]

/-- A wide move. -/
theorem steady_moveWide {top : Bool} {imm : Halfword} (other : rd ≠ .pc) :
    (Instruction.core (.moveWide top rd imm)).Steady u := by
  intro s t performed
  have apart : .pc ∉ [rd] := by simpa using other.symm
  simp only [Instruction.perform, CoreInstruction.perform, CoreInstruction.execute,
    State.unlessPc, if_neg apart, Option.some.injEq] at performed
  subst performed
  simp [State.core_put other]

/-- An instruction with an operand that can be built and has one spelling. -/
theorem regular_of_operand {i : CoreInstruction} (operand : i.operand? = some o)
    (built : o.Constructible) (plain : i.plain = i)
    (free : (Instruction.core i).isUnconditional = false) : (Instruction.core i).Regular := by
  refine ⟨fun o' mem ↦ ?_, congrArg Instruction.core plain, free⟩
  rw [operand] at mem
  cases mem
  exact built

/-- The operand found for a constant is a constant that can be built. -/
theorem built_of_ofValue? (found : Operand.ofValue? value = some o) :
    o.Constructible ∧ o.plain = o := by
  obtain ⟨rotate, imm8, rfl, -⟩ := Operand.exists_of_ofValue? found
  exact ⟨.value (by rw [Operand.ofValue, found]), rfl⟩

/-- Loading a constant. -/
theorem constant_steadily (other : rd ≠ .pc) :
    Steadily u fun d ↦ issueCore d (constant rd value) := by
  refine ⟨(constant rd value).map .core, fun _ ↦ rfl, fun i mem ↦ ?_⟩
  obtain ⟨j, among, rfl⟩ := List.mem_map.mp mem
  unfold constant at among
  split at among
  · next found =>
    rw [List.mem_singleton.mp among]
    obtain ⟨built, plain⟩ := built_of_ofValue? found
    exact ⟨regular_of_operand rfl built (congrArg _ plain) rfl, steady_move other⟩
  split at among
  · next found =>
    rw [List.mem_singleton.mp among]
    obtain ⟨built, plain⟩ := built_of_ofValue? found
    exact ⟨regular_of_operand rfl built (congrArg _ plain) rfl, steady_move other⟩
  obtain rfl | among := List.mem_cons.mp among
  · exact ⟨⟨by rintro o ⟨⟩, rfl, rfl⟩, steady_moveWide other⟩
  split at among
  · cases among
  · rw [List.mem_singleton.mp among]
    exact ⟨⟨by rintro o ⟨⟩, rfl, rfl⟩, steady_moveWide other⟩

end Instructions

section Requests

variable {rd rn base : Register} {value offset : Word}

/-- An operation with a constant is issued as what loads `IP`, or nothing, and one instruction, the
operation or its opposite with an operand that can be built. -/
theorem withConstant_parts {direct opposite : Operand → CoreInstruction} {m : Misuse}
    (spelled : (withConstant c direct opposite rn m value).words = .ok ws) :
    ∃ (setup : Condition → Sequence) (i : CoreInstruction),
      (∀ d, withConstant d direct opposite rn m value = setup d ++ issueCore d [i]) ∧
      Steadily u setup ∧
      ∃ o : Operand, o.Constructible ∧ o.plain = o ∧ (i = direct o ∨ i = opposite o) := by
  unfold withConstant at spelled ⊢
  split at spelled
  · next found =>
    obtain ⟨built, plain⟩ := built_of_ofValue? found
    exact ⟨_, _, fun _ ↦ rfl, .nil, _, built, plain, .inl rfl⟩
  split at spelled
  · next found =>
    obtain ⟨built, plain⟩ := built_of_ofValue? found
    exact ⟨_, _, fun _ ↦ rfl, .nil, _, built, plain, .inr rfl⟩
  · obtain ⟨other, -⟩ := words_guarded.mp spelled
    refine ⟨fun d ↦ issueCore d (constant .ip value), _, fun d ↦ ?_,
      constant_steadily (by decide), _, .register .ip, rfl, .inl rfl⟩
    rw [guarded, if_pos other]
    simp only [issueCore, issue, List.map_append]

/-- Adding a constant. -/
theorem addImmediate_predicable {setFlags : Bool}
    (spelled : (addImmediate c setFlags rd rn value).words = .ok ws) :
    Predicable u fun d ↦ addImmediate d setFlags rd rn value := by
  obtain ⟨setup, i, parts, steadily, o, built, plain, direct⟩ := withConstant_parts spelled
  have regular : (Instruction.core i).Regular := by
    rcases direct with rfl | rfl <;> exact regular_of_operand rfl built (congrArg _ plain) rfl
  rw [show (fun d ↦ addImmediate d setFlags rd rn value) = _ from funext parts]
  exact steadily.last regular

/-- Adding a constant is steady if it leaves the flags alone. -/
theorem addImmediate_steadily (other : rd ≠ .pc)
    (spelled : (addImmediate c false rd rn value).words = .ok ws) :
    Steadily u fun d ↦ addImmediate d false rd rn value := by
  obtain ⟨setup, i, parts, steadily, o, built, plain, direct⟩ := withConstant_parts spelled
  have steady : (Instruction.core i).Regular ∧ (Instruction.core i).Steady u := by
    rcases direct with rfl | rfl <;>
      exact ⟨regular_of_operand rfl built (congrArg _ plain) rfl, steady_arithmetic other⟩
  rw [show (fun d ↦ addImmediate d false rd rn value) = _ from funext parts]
  exact steadily.append ⟨[.core i], fun _ ↦ rfl, by simpa using steady⟩

/-- Comparing with a constant. -/
theorem compareImmediate_predicable (spelled : (compareImmediate c rn value).words = .ok ws) :
    Predicable u fun d ↦ compareImmediate d rn value := by
  obtain ⟨setup, i, parts, steadily, o, built, plain, direct⟩ := withConstant_parts spelled
  have regular : (Instruction.core i).Regular := by
    rcases direct with rfl | rfl <;> exact regular_of_operand rfl built (congrArg _ plain) rfl
  rw [show (fun d ↦ compareImmediate d rn value) = _ from funext parts]
  exact steadily.last regular

/-- Loading a single-precision constant. -/
theorem loadSingle_predicable {sd : SRegister} : Predicable u fun d ↦ loadSingle d sd value := by
  unfold loadSingle
  split
  · exact .single ⟨trivial, rfl, rfl⟩
  · exact (constant_steadily (by decide)).last ⟨trivial, rfl, rfl⟩

/-- Loading a double-precision constant. -/
theorem loadDouble_predicable {dd : DRegister} {x : Doubleword} {scratch : Register}
    (other : scratch ≠ .pc) (spelled : (loadDouble c dd x scratch).words = .ok ws) :
    Predicable u fun d ↦ loadDouble d dd x scratch := by
  unfold loadDouble at spelled ⊢
  split at spelled
  · exact .single ⟨trivial, rfl, rfl⟩
  · obtain ⟨free, -⟩ := words_guarded.mp spelled
    simp only [guarded, if_pos free]
    exact ((constant_steadily other).append (constant_steadily (by decide))).last
      ⟨trivial, rfl, rfl⟩

/-- The instructions that prepare an address. -/
theorem reach_steadily {fits : Prop} [Decidable fits]
    (spelled : (reach c base offset fits).1.words = .ok ws) :
    Steadily u fun d ↦ (reach d base offset fits).1 := by
  unfold reach at spelled ⊢
  split at spelled
  · next fits =>
    simp only [if_pos fits]
    exact .nil
  · next far =>
    obtain ⟨free, spelled⟩ := words_guarded.mp spelled
    simp only [if_neg far, guarded, if_pos free]
    exact addImmediate_steadily (by decide) spelled

/-- A transfer at an offset. -/
theorem offsetTransfer_predicable {x : OffsetTransfer} {features : Features}
    (spelled : ((x.request base offset).sequence features c).words = .ok ws) :
    Predicable u fun d ↦ (x.request base offset).sequence features d := by
  obtain ⟨m, supported, accepts⟩ := x.accepts_of_words spelled
  have parts (d : Condition) : (x.request base offset).sequence features d = _ :=
    x.sequence_eq supported accepts
  -- the address is the same under every condition
  have address (d : Condition) : (reach d base offset (x.Reaches offset)).2 =
      if x.Reaches offset then .ofOffset base offset else .ofOffset .ip 0 := by
    unfold reach
    split <;> rfl
  rw [parts] at spelled
  obtain ⟨us, -, setup, -, -⟩ := words_append.mp spelled
  rw [show (fun d ↦ (x.request base offset).sequence features d) = _ from funext parts]
  simp only [address]
  refine (reach_steadily setup).last ?_
  have free (a : Address) : (m a).isUnconditional = false := by
    cases x with
    | load size rd => cases size <;> cases supported <;> rfl
    | store size rd => cases size <;> cases supported <;> rfl
    | float isLoad d =>
      cases supported
      rfl
  split
  · obtain ⟨formed, plain⟩ := x.formed_mnemonic supported base offset
    exact ⟨formed, plain, free _⟩
  · obtain ⟨formed, plain⟩ := x.formed_mnemonic supported .ip 0
    exact ⟨formed, plain, free _⟩

/-- A transfer of a VFP register is steady. -/
theorem steady_floatTransfer {load : Bool} {p : Precision} {r : FloatRegister p} {a : Address} :
    (Instruction.float (.transfer load r a)).Steady u := by
  intro s t performed
  simp only [Instruction.perform, FloatInstruction.perform, State.transferFloat] at performed
  split at performed
  all_goals
    obtain ⟨-, -, rfl⟩ := Option.map_eq_some_iff.mp performed
    simp

/-- Loads of both halves of a quadword register. -/
theorem loadQuad_predicable {q : QRegister} (spelled : (loadQuad c q base offset).words = .ok ws) :
    Predicable u fun d ↦ loadQuad d q base offset := by
  obtain ⟨us, vs, first, second, -⟩ := words_append.mp spelled
  obtain ⟨low, low_eq, -⟩ := words_withValue.mp first
  obtain ⟨high, high_eq, second⟩ := words_withValue.mp second
  obtain ⟨next, next_eq, -⟩ := words_withValue.mp second
  have regular (r : DRegister) (a : Address) :
      (Instruction.float (.transfer true r a)).Regular := ⟨trivial, rfl, rfl⟩
  simp only [loadQuad, low_eq, high_eq, next_eq, withValue]
  refine Steadily.last ⟨[_], fun _ ↦ rfl, ?_⟩ (regular high _)
  simpa using ⟨regular low _, steady_floatTransfer⟩

end Requests

end Sequence

variable {u : FloatUnit} {c : Condition} {ws : List Word}

open Sequence in
/-- A request that expands to no vector instructions and puts no division right. -/
theorem Request.predicable {features : Features} {r : Request} (scalar : r.isUnconditional = false)
    (uniform : r.fixUps features = []) (low : .pc ∉ r.cores)
    (spelled : (r.sequence features c).words = .ok ws) :
    Predicable u fun d ↦ r.sequence features d := by
  cases r with
  | loadImmediate rd value =>
    exact (constant_steadily (by simpa [cores, eq_comm] using low)).predicable
  | loadSingle sd value => exact loadSingle_predicable
  | loadDouble dd value scratch =>
    exact loadDouble_predicable (by simpa [cores, eq_comm] using low) spelled
  | addImmediate setFlags rd rn value => exact addImmediate_predicable spelled
  | compareImmediate rn value => exact compareImmediate_predicable spelled
  | loadOffset size rd base offset =>
    exact offsetTransfer_predicable (x := .load size rd) spelled
  | storeOffset size rd base offset =>
    exact offsetTransfer_predicable (x := .store size rd) spelled
  | floatOffset load d base offset =>
    exact offsetTransfer_predicable (x := .float load d) spelled
  | loadQuad q base offset => exact loadQuad_predicable spelled
  | divide signed result left right dl dr =>
    have hardware : features.integerDivision = true := by
      by_contra without
      cases signed <;> simp [fixUps, without, divisionFixUps] at uniform
    simp only [sequence, Sequence.divide, if_pos hardware]
    exact .single ⟨by rintro o ⟨⟩, rfl, rfl⟩
  | reciprocal | rootReciprocal | root | quotient => cases scalar

/-- The instructions of a far branch. -/
def farInstructions (link : Bool) (offset : Word) : List Instruction :=
  .core (.moveWide false .ip (offset.extractLsb' 0 16)) ::
    .core (.moveWide true .ip (offset.extractLsb' 16 16)) ::
    if link then
      [.core (.arithmetic .add false .ip .pc (.register .ip)), .core (.branchExchange true .ip)]
    else [.core (.arithmetic .add false .pc .pc (.register .ip))]

/-- They are read back from the words of the branch. -/
theorem decodes_farWords {link : Bool} {offset : Word} :
    Decodes c (branchWords c .far link offset) (farInstructions link offset) := by
  have low := Decode.decodeAny_of_decode (decode_wideWord (c := c) false (offset.extractLsb' 0 16))
  have high := Decode.decodeAny_of_decode (decode_wideWord (c := c) true (offset.extractLsb' 16 16))
  have add : decodeAny (Encoding.addWord c link) = some _ :=
    Decode.decodeAny_of_decode decode_addWord
  cases link with
  | false => exact .cons low (.cons high (.cons add .nil))
  | true =>
    exact .cons low (.cons high (.cons add
      (.cons (Decode.decodeAny_of_decode decode_exchangeWord) .nil)))

/-- A far branch under a condition branches as it does under `AL`, or is passed over. -/
theorem allOrNothing_farWords {link : Bool} {offset : Word} :
    AllOrNothing u c (branchWords c .far link offset) (branchWords .al .far link offset) := by
  refine allOrNothing decodes_farWords decodes_farWords ?_
  have ip_pc : Register.ip ≠ .pc := by decide
  cases link <;>
    simp [farInstructions, Sequence.steady_moveWide ip_pc, Sequence.steady_arithmetic ip_pc]

/-- Code under a condition is executed as a whole or not at all. First, every request that is
accepted under a condition, does not name `PC`, and expands neither to vector instructions nor to a
division without a divider: it is accepted under `AL`, too, and in every state its words do what the
words under `AL` do if the condition holds, and are passed over if not. Second, in every assembler
that a script can lead to, every far branch, with the displacement that it has there: it does what
the unconditional branch with this displacement does, or is passed over. -/
theorem predicated_all_or_nothing (u : FloatUnit) :
    (∀ (a b : Assembler) (c : Condition) (r : Request) (answer : Answer),
      r.isUnconditional = false → r.fixUps a.settings.features = [] → .pc ∉ r.cores →
      Assembler.apply { a with condition := c } (.expand r) = .ok (answer, b) →
      ∃ ws vs, b = Assembler.append { a with condition := c } ws ∧
        Assembler.apply { a with condition := .al } (.expand r) =
          .ok (answer, Assembler.append { a with condition := .al } vs) ∧
        AllOrNothing u c ws vs) ∧
    ∀ (settings : Settings) (steps : List Step) (records : List Record) (a : Assembler)
      (e : EmittedBranch), runSteps (.start settings) steps = (records, some a) →
      e ∈ branchesOf (.start settings) [] steps → e.kind = .far →
      ∃ offset, a.buffer.HasAt e.position (e.words offset) ∧
        AllOrNothing u e.condition (e.words offset) (branchWords .al .far e.link offset) := by
  constructor
  · intro a b c r answer scalar uniform low done
    simp only [Assembler.apply, liftMisuse_eq_ok, bind_eq_ok, pure_eq_ok, Prod.mk.injEq,
      Assembler.issueAll_eq_ok] at done
    obtain ⟨-, ⟨ws, spelled, rfl⟩, rfl, rfl⟩ := done
    obtain ⟨vs, always, whole⟩ :=
      (Request.predicable (u := u) scalar uniform low spelled).allOrNothing spelled
    exact ⟨ws, vs, rfl, Sequence.apply_expand always, whole⟩
  · intro settings steps records a e ran emitted far
    obtain ⟨offset, there⟩ := (Tracks.start.script ran).laid.there e emitted
    refine ⟨offset, there, ?_⟩
    rw [EmittedBranch.words, far]
    exact allOrNothing_farWords

/-- An addition through `IP` that sets the flags, and a far branch with link to a label behind it,
both under `NE`. -/
theorem predicated_addition_and_call :
    (∃ b ws vs, Assembler.apply { Assembler.start (.near .full) with condition := .ne }
        (.expand (.addImmediate true .r0 .lr 0x12345678)) = .ok (.nothing, b) ∧
      b = Assembler.append { Assembler.start (.near .full) with condition := .ne } ws ∧
      AllOrNothing .reference .ne ws vs) ∧
    ∃ a offset, (runSteps (.start (.near .full)) twoBranches).2 = some a ∧
      a.buffer.HasAt 4 (branchWords .ne .far true offset) ∧
      AllOrNothing .reference .ne (branchWords .ne .far true offset)
        (branchWords .al .far true offset) := by
  obtain ⟨requests, branches⟩ := predicated_all_or_nothing .reference
  constructor
  · have accepted : ∃ b, Assembler.apply { Assembler.start (.near .full) with condition := .ne }
        (.expand (.addImmediate true .r0 .lr 0x12345678)) = .ok (.nothing, b) := ⟨_, rfl⟩
    obtain ⟨b, done⟩ := accepted
    obtain ⟨ws, vs, appended, -, whole⟩ := requests _ b .ne _ _ rfl rfl (by decide) done
    exact ⟨b, ws, vs, done, appended, whole⟩
  · have runs : ((runSteps (.start (.near .full)) twoBranches).2).isSome := by decide +kernel
    obtain ⟨a, ran⟩ := Option.isSome_iff_exists.mp runs
    obtain ⟨offset, there, whole⟩ := branches _ _ _ a ⟨4, .far, true, .ne, ⟨0⟩⟩ (Prod.ext rfl ran)
      (by decide +kernel) rfl
    exact ⟨a, offset, ran, there, whole⟩

end A32Assembler
