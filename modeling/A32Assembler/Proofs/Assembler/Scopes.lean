import A32Assembler.Proofs.Assembler.Calls
import A32Assembler.Proofs.Branch.Frame
import A32Assembler.Proofs.Sequence.Conditions

/-!
# Scopes

Every word of the code has an origin: a call, and the scope that this call stands in. The word
carries the condition of this scope, whatever has been emitted, bound and patched since. Words that
were appended as they are, words without a condition field and the words that put a division right
are the exceptions.
-/

namespace A32Assembler

namespace Call

variable {a : Assembler} {call : Call} {p : Predicated} {k : Nat}

/-- Whether a call appends a word as it is. -/
def isRaw : Call → Bool
  | word _ => true
  | _ => false

/-- Whether a call emits what can be issued under `AL` only: vector instructions, the end of an
exclusive access, and breakpoints. -/
def isUnconditional : Call → Bool
  | issue i => i.isUnconditional
  | expand r => r.isUnconditional
  | _ => false

/-- The places of words that carry `EQ`, whatever the condition in force: those that put the result
of a division without hardware right. -/
def fixUps (features : Features) : Call → List Nat
  | expand r => r.fixUps features
  | _ => []

/-- The instructions that a call issues carry the condition in force, but for the places that put a
division right. -/
theorem condition_of_sequence (free : call.isUnconditional = false)
    (found : (call.sequence a)[k]? = some (.ok p)) :
    p.condition = (if k ∈ call.fixUps a.settings.features then .eq else a.condition) ∧
      p.instruction.isUnconditional = false := by
  have one {i : Instruction} (free : i.isUnconditional = false)
      (found : ([.ok ⟨a.condition, i⟩] : Sequence)[k]? = some (.ok p)) :
      p.condition = a.condition ∧ p.instruction.isUnconditional = false := by
    cases k with
    | zero =>
      cases found
      exact ⟨rfl, free⟩
    | succ k => cases found
  cases call with
  | expand r => exact Request.condition_of_sequence free found
  | issue i => exact one free found
  | shift s rd rm amount =>
    rw [sequence] at found
    split at found
    · next i built =>
      simp only [CoreInstruction.shift, bind_eq_ok, pure_eq_ok] at built
      obtain ⟨o, -, rfl⟩ := built
      exact one rfl found
    · cases found
  | moveSingle sd value | moveDouble dd value =>
    rw [sequence] at found
    split at found
    · exact one rfl found
    · cases found
  | _ => cases found

/-- Under a condition other than `AL`, a call that emits what can be issued under `AL` only, or a
division without hardware, is a misuse. -/
theorem misused_of_condition_ne (other : a.condition ≠ .al)
    (only : call.isUnconditional ∨ call.fixUps a.settings.features ≠ []) :
    ∃ m, a.apply call = .error (.misuse m) := by
  cases call with
  | issue i =>
    have only : i.isUnconditional := only.resolve_right fun fixes ↦ fixes rfl
    cases encoded : i.encode a.condition with
    | ok w => exact absurd (Instruction.always_of_encode only encoded) other
    | error m =>
      refine ⟨m, ?_⟩
      rw [Assembler.apply, Assembler.issue, encoded]
      rfl
  | expand r =>
    cases spelled : (r.sequence a.settings.features a.condition).words with
    | ok ws => exact absurd (Request.always_of_words only spelled) other
    | error m =>
      refine ⟨m, ?_⟩
      rw [Assembler.apply, Assembler.issueAll, spelled]
      rfl
  | _ => simp [isUnconditional, fixUps] at only

end Call

/-- The words of a branch carry its condition. -/
theorem conditionBits_branchWords {c : Condition} {kind : BranchKind} {link : Bool}
    {offset w : Word} {k : Nat} (found : (branchWords c kind link offset)[k]? = some w) :
    w.conditionBits = c.bits := by
  have near (field : BitVec 24) : (Encoding.nearWord c link field).conditionBits = c.bits :=
    Decode.conditionBits_eq Decode.decode_branch (by simp)
  have wide (top : Bool) (imm : Halfword) : (Encoding.wideWord c top imm).conditionBits = c.bits :=
    Decode.conditionBits_eq (decode_wideWord top imm) (by simp)
  have add (link : Bool) : (Encoding.addWord c link).conditionBits = c.bits :=
    Decode.conditionBits_eq decode_addWord (by simp)
  have exchange : (Encoding.exchangeWord c).conditionBits = c.bits :=
    Decode.conditionBits_eq decode_exchangeWord (by simp)
  have all : ∀ w ∈ branchWords c kind link offset, w.conditionBits = c.bits := by
    cases kind with
    | near => simp [branchWords, near]
    | far => cases link <;> simp [branchWords, wide, add, exchange]
  exact all w (List.mem_of_getElem? found)

/-- Where a word of the code comes from. -/
structure Origin where
  /-- The condition of the innermost scope around the call, `AL` outside all scopes. -/
  scope : Condition
  call : Call
  /-- The features in force at the call. -/
  features : Features
  /-- The place of the word among those of the call. -/
  index : Nat

namespace Origin

variable {o : Origin} {c : Condition}

/-- The condition of a word: that of the scope around its call, or `EQ` if it puts a division right.
There is none if it was appended as it is or can be issued under `AL` only. -/
def condition? (o : Origin) : Option Condition :=
  if o.call.isRaw || o.call.isUnconditional then none
  else some (if o.index ∈ o.call.fixUps o.features then .eq else o.scope)

/-- Most words have a condition. -/
theorem condition?_eq_some : o.condition? = some c ↔ o.call.isRaw = false ∧
    o.call.isUnconditional = false ∧
    (if o.index ∈ o.call.fixUps o.features then .eq else o.scope) = c := by
  rw [condition?]
  cases o.call.isRaw <;> cases o.call.isUnconditional <;> simp

/-- The word carries the condition of its origin. -/
def Shows (o : Origin) (w : Word) : Prop := ∀ c, o.condition? = some c → w.conditionBits = c.bits

end Origin

/-- The origins of the words after a call that succeeds in a given scope and leads from one
assembler to another. -/
def Call.origins (scope : Condition) (a b : Assembler) (os : List Origin) : Call → List Origin
  | clear => []
  | call => os ++ (List.range (b.buffer.words.length - a.buffer.words.length)).map
      fun index ↦ ⟨scope, call, a.settings.features, index⟩

mutual

/-- The origins of the words after a step. -/
def Step.origins (scope : Condition) (a : Assembler) (os : List Origin) : Step → List Origin
  | .call (.ok call) =>
    match a.apply call with
    | .ok (_, b) => call.origins scope a b os
    | .error _ => os
  | .call (.error _) => os
  | .scope c body => originsOf c { a with condition := c } os body

/-- The origins of the words after the steps that ran. -/
def originsOf (scope : Condition) (a : Assembler) (os : List Origin) : List Step → List Origin
  | [] => os
  | s :: rest =>
    match s.run a with
    | (_, some b) => originsOf scope b (s.origins scope a os) rest
    | (_, none) => s.origins scope a os

end

mutual

/-- Whether a step forgets the code, or a step inside its scope does. -/
def Step.clears : Step → Bool
  | .call (.ok .clear) => true
  | .call _ => false
  | .scope _ body => clearsAny body

/-- Whether a step forgets the code. -/
def clearsAny : List Step → Bool
  | [] => false
  | s :: rest => s.clears || clearsAny rest

end

/-- Only steps outside all scopes forget the code. -/
def ClearsOutside (steps : List Step) : Prop :=
  ∀ c body, .scope c body ∈ steps → clearsAny body = false

/-- The condition in force is that of the scope, and every word shows where it comes from. -/
structure Scoped (scope : Condition) (a : Assembler) (os : List Origin) : Prop where
  condition : a.condition = scope
  length : os.length = a.buffer.words.length
  shows : ∀ (i : Nat) (o : Origin) (w : Word), os[i]? = some o →
    a.buffer.words[i]? = some w → o.Shows w

namespace Scoped

variable {scope c : Condition} {a b : Assembler} {os : List Origin} {h : List EmittedBranch}
  {call : Call} {answer : Answer} {r : Record}

/-- A fresh assembler has no words. -/
theorem start {settings : Settings} : Scoped .al (.start settings) [] where
  condition := rfl
  length := rfl
  shows i o w found := by simp at found

/-- The condition and everything but the code do not matter to the words. -/
theorem enter (inv : Scoped scope a os) (words : b.buffer.words = a.buffer.words)
    (condition : b.condition = c) : Scoped c b os where
  condition := condition
  length := by rw [words, inv.length]
  shows i o w found present := inv.shows i o w found (words ▸ present)

/-- The origins of a call that appends words. -/
theorem append (inv : Scoped scope a os) {ws : List Word} (kept : call ≠ .clear)
    (words : b.buffer.words = a.buffer.words ++ ws) (condition : b.condition = a.condition)
    (shows : ∀ k w, ws[k]? = some w → Origin.Shows ⟨scope, call, a.settings.features, k⟩ w) :
    Scoped scope b (call.origins scope a b os) := by
  have count : b.buffer.words.length - a.buffer.words.length = ws.length := by
    rw [words, List.length_append, Nat.add_sub_cancel_left]
  have origins : call.origins scope a b os =
      os ++ (List.range ws.length).map fun k ↦ ⟨scope, call, a.settings.features, k⟩ := by
    rw [← count]
    cases call with
    | clear => exact absurd rfl kept
    | _ => rfl
  rw [origins]
  refine ⟨condition.trans inv.condition, ?_, fun i o w found present ↦ ?_⟩
  · rw [words, List.length_append, List.length_append, List.length_map, List.length_range,
      inv.length]
  · rw [words] at present
    by_cases inside : i < a.buffer.words.length
    · rw [List.getElem?_append_left (inv.length ▸ inside)] at found
      rw [List.getElem?_append_left inside] at present
      exact inv.shows i o w found present
    · have behind : a.buffer.words.length ≤ i := Nat.le_of_not_lt inside
      rw [List.getElem?_append_right (inv.length ▸ behind), inv.length, List.getElem?_map] at found
      rw [List.getElem?_append_right behind] at present
      obtain ⟨k, within, rfl⟩ := Option.map_eq_some_iff.mp found
      obtain ⟨-, rfl⟩ := List.getElem?_eq_some_iff.mp within
      rw [List.getElem_range]
      exact shows _ w present

/-- A call that appends nothing. -/
theorem quiet (inv : Scoped scope a os) (kept : call ≠ .clear)
    (words : b.buffer.words = a.buffer.words) (condition : b.condition = a.condition) :
    Scoped scope b (call.origins scope a b os) := by
  have none : b.buffer.words = a.buffer.words ++ [] := by rw [words, List.append_nil]
  exact inv.append kept none condition fun k w found ↦ by simp at found

/-- Turning a branch does not change its condition. -/
theorem conditionBits_turned {e : EmittedBranch} {i : Nat} {v w : Word} (turns : e.Turns i v w) :
    v.conditionBits = w.conditionBits := by
  obtain ⟨k, old, new, -, before, after, -⟩ := turns
  rw [conditionBits_branchWords before, conditionBits_branchWords after]

/-- Binding a label: the branches that it turns keep their conditions. -/
theorem bind (inv : Scoped scope a os) (tracks : Tracks a h) {l : Label}
    (done : a.bind l = .ok b) : Scoped scope b ((Call.bind l).origins scope a b os) := by
  obtain ⟨size, turned⟩ := Assembler.words_bind tracks done
  have length : b.buffer.words.length = a.buffer.words.length := by
    have before := a.buffer.length_words
    have after := b.buffer.length_words
    omega
  have origins : (Call.bind l).origins scope a b os = os := by
    change os ++ (List.range (b.buffer.words.length - a.buffer.words.length)).map _ = os
    rw [length, Nat.sub_self, List.range_zero, List.map_nil, List.append_nil]
  have condition : b.condition = a.condition := (Call.Does.bind done).condition_eq (by simp)
  rw [origins]
  refine ⟨condition.trans inv.condition, inv.length.trans length.symm, fun i o w found present ↦ ?_⟩
  obtain ⟨inside, -⟩ := List.getElem?_eq_some_iff.mp present
  have before := List.getElem?_eq_getElem (length ▸ inside)
  intro c carried
  have shown := inv.shows i o _ found before c carried
  obtain same | ⟨e, -, -, turns⟩ := turned i _ w before present
  · rwa [same] at shown
  · rwa [conditionBits_turned turns] at shown

/-- Every call that succeeds keeps the origins, and only clearing changes the condition. -/
theorem apply (inv : Scoped scope a os) (tracks : Tracks a h)
    (done : a.apply call = .ok (answer, b)) (outside : call = .clear → scope = .al) :
    Scoped scope b (call.origins scope a b os) := by
  cases Assembler.apply_does done with
  | issue issues spelled =>
    have kept : call ≠ .clear := by
      rintro rfl
      cases issues
    refine inv.append kept (a.buffer.words_emitAll _) rfl fun k w found c carried ↦ ?_
    obtain ⟨-, free, rfl⟩ := Origin.condition?_eq_some.mp carried
    obtain ⟨p, place, encoded⟩ := Sequence.getElem?_of_words spelled found
    obtain ⟨condition, free⟩ := Call.condition_of_sequence free place
    rw [Predicated.conditionBits_eq encoded free, condition, inv.condition]
  | word w =>
    refine inv.append (by simp) (a.buffer.words_emitAll [w]) rfl fun k w found c none ↦ ?_
    cases none
  | branch done =>
    obtain ⟨offset, words, -⟩ := Assembler.words_branch done
    have condition := (Call.Does.branch done).condition_eq (by simp)
    refine inv.append (by simp) words condition fun k w found c carried ↦ ?_
    cases carried
    rw [conditionBits_branchWords found, inv.condition]
    rfl
  | bind done => exact inv.bind tracks done
  | clear => exact ⟨(outside rfl).symm, rfl, fun i o w found ↦ by simp [Call.origins] at found⟩
  | newLabel | setFarBranches far | setFeatures features => exact inv.quiet (by simp) rfl rfl
  | ask asks =>
    have kept : call ≠ .clear := by
      rintro rfl
      cases asks
    exact inv.quiet kept rfl rfl

/-- Every call that leaves an assembler, and every call whose operands are refused. -/
theorem after_call (inv : Scoped scope a os) (tracks : Tracks a h) {c : Except Error Call}
    (outside : c = .ok .clear → scope = .al) (ran : (Step.call c).run a = (r, some b)) :
    Scoped scope b ((Step.call c).origins scope a os) := by
  obtain ⟨made, answer, rfl, done⟩ | ⟨rfl, refused⟩ := Step.run_call ran
  · rw [Step.origins, done]
    exact inv.apply tracks done fun clear ↦ outside (congrArg Except.ok clear)
  · cases c with
    | error e => exact inv
    | ok made =>
      obtain ⟨e, refused⟩ := refused made rfl
      rw [Step.origins, refused]
      exact inv

end Scoped

mutual

/-- Every step that leaves an assembler and clears nothing keeps the origins. -/
theorem Scoped.step {scope : Condition} {a b : Assembler} {os : List Origin}
    {h : List EmittedBranch} {r : Record} (inv : Scoped scope a os) (tracks : Tracks a h) :
    ∀ {s : Step}, s.clears = false → s.run a = (r, some b) → Scoped scope b (s.origins scope a os)
  | .call c, keeps, ran => by
    refine inv.after_call tracks ?_ ran
    rintro rfl
    cases keeps
  | .scope c body, keeps, ran => by
    obtain ⟨records, last, inside, rfl⟩ := Step.run_scope ran
    have inner : Scoped c { a with condition := c } os := inv.enter rfl rfl
    have tracked : Tracks { a with condition := c } h := tracks.congr rfl rfl
    exact (inner.script tracked keeps inside).enter rfl inv.condition

/-- So does every script that does not end in a misuse. -/
theorem Scoped.script {scope : Condition} {a b : Assembler} {os : List Origin}
    {h : List EmittedBranch} {rs : List Record} (inv : Scoped scope a os) (tracks : Tracks a h) :
    ∀ {steps : List Step}, clearsAny steps = false → runSteps a steps = (rs, some b) →
      Scoped scope b (originsOf scope a os steps)
  | [], _, ran => by
    cases ran
    exact inv
  | s :: rest, keeps, ran => by
    rw [clearsAny, Bool.or_eq_false_iff] at keeps
    obtain ⟨r, next, records, first, others⟩ := runSteps_cons ran
    rw [originsOf, first]
    exact (inv.step tracks keeps.1 first).script (tracks.step first) keeps.2 others

end

/-- Outside all scopes the code may be cleared: the condition is `AL` there. -/
theorem Scoped.outermost {a b : Assembler} {os : List Origin} {h : List EmittedBranch}
    {rs : List Record} (inv : Scoped .al a os) (tracks : Tracks a h) {steps : List Step}
    (outside : ClearsOutside steps) (ran : runSteps a steps = (rs, some b)) :
    Scoped .al b (originsOf .al a os steps) := by
  induction steps generalizing a os h rs with
  | nil =>
    cases ran
    exact inv
  | cons s rest ih =>
    obtain ⟨r, next, records, first, others⟩ := runSteps_cons ran
    rw [originsOf, first]
    have inv' : Scoped .al next (s.origins .al a os) := by
      cases s with
      | call c => exact inv.after_call tracks (fun _ ↦ rfl) first
      | scope c body => exact inv.step tracks (outside c body List.mem_cons_self) first
    exact ih inv' (tracks.step first)
      (fun c body mem ↦ outside c body (List.mem_cons_of_mem s mem)) others

/-- A scope puts the condition back, and no call but clearing changes it. -/
theorem Step.condition_eq {s : Step} {a b : Assembler} {r : Record}
    (kept : s ≠ .call (.ok .clear)) (ran : s.run a = (r, some b)) : b.condition = a.condition := by
  cases s with
  | scope c body =>
    obtain ⟨records, last, -, rfl⟩ := Step.run_scope ran
    rfl
  | call c =>
    obtain ⟨made, answer, rfl, done⟩ | ⟨rfl, -⟩ := Step.run_call ran
    · exact (Assembler.apply_does done).condition_eq fun clear ↦ kept (by rw [clear])
    · rfl

/-- In the code of every script that clears outside its scopes only, each word carries the condition
of the innermost scope around the call that emitted it, and `AL` outside all scopes. This includes
the branches that were turned later. Every step but clearing leaves the condition that it found.
Only words appended as they are, words without a condition and those that put a division right
differ, and the calls that emit the latter two are misuses under a condition other than `AL`. -/
theorem words_carry_scope {settings : Settings} {steps : List Step} {records : List Record}
    {a : Assembler} (ran : runSteps (.start settings) steps = (records, some a))
    (outside : ClearsOutside steps) :
    a.condition = .al ∧
    (originsOf .al (.start settings) [] steps).length = a.buffer.words.length ∧
    (∀ (i : Nat) (o : Origin) (w : Word), (originsOf .al (.start settings) [] steps)[i]? = some o →
      a.buffer.words[i]? = some w → o.Shows w) ∧
    (∀ (s : Step) (x y : Assembler) (r : Record), s ≠ .call (.ok .clear) →
      s.run x = (r, some y) → y.condition = x.condition) ∧
    ∀ (x : Assembler) (call : Call), x.condition ≠ .al →
      call.isUnconditional ∨ call.fixUps x.settings.features ≠ [] →
      ∃ m, x.apply call = .error (.misuse m) := by
  have inv := Scoped.start.outermost Tracks.start outside ran
  exact ⟨inv.condition, inv.length, inv.shows, fun s x y r kept ran ↦ Step.condition_eq kept ran,
    fun x call other only ↦ Call.misused_of_condition_ne other only⟩

/-- A branch under `NE`, and a constant under `GT` inside the same scope. Then a division without
hardware, and the label of the branch. -/
def nestedScopes : List Step :=
  [.call (.ok .newLabel),
    .scope .ne [.call (.ok (.branch false ⟨0⟩)),
      .scope .gt [.call (.ok (.expand (.loadImmediate ⟨0⟩ 0x12345678)))],
      .call (.ok (.word 0))],
    .call (.ok (.expand (.divide true ⟨0⟩ ⟨1⟩ ⟨2⟩ ⟨0⟩ ⟨1⟩))), .call (.ok (.bind ⟨0⟩))]

/-- The conditions of its sixteen words: the branch carries `NE` after its label is bound, the
constant `GT`, and the two words that put the division right `EQ`. -/
theorem nested_scopes_carry : ∃ a,
    (runSteps (.start (.near ⟨false, false⟩)) nestedScopes).2 = some a ∧ a.condition = .al ∧
    ∀ (i : Nat) (c : Condition) (w : Word),
      [some .ne, some .gt, some .gt, none, some .al, some .al, some .al, some .al, some .al,
        some .al, some .al, some .al, some .eq, some .al, some .eq, some .al][i]? = some (some c) →
      a.buffer.words[i]? = some w → w.conditionBits = c.bits := by
  have conditions : (originsOf .al (.start (.near ⟨false, false⟩)) [] nestedScopes).map
      Origin.condition? =
      [some .ne, some .gt, some .gt, none, some .al, some .al, some .al, some .al, some .al,
        some .al, some .al, some .al, some .eq, some .al, some .eq, some .al] := by
    decide +kernel
  have runs : (runSteps (.start (.near ⟨false, false⟩)) nestedScopes).2.isSome = true := by
    decide +kernel
  obtain ⟨a, ran⟩ := Option.isSome_iff_exists.mp runs
  have outside : ClearsOutside nestedScopes := by
    intro c body mem
    simp only [nestedScopes, List.mem_cons, Step.scope.injEq, reduceCtorEq, false_or, or_false,
      List.not_mem_nil] at mem
    obtain ⟨-, rfl⟩ := mem
    rfl
  obtain ⟨always, -, shows, -⟩ := words_carry_scope (Prod.ext rfl ran) outside
  refine ⟨a, ran, always, fun i c w carried present ↦ ?_⟩
  rw [← conditions, List.getElem?_map] at carried
  obtain ⟨o, found, condition⟩ := Option.map_eq_some_iff.mp carried
  exact shows i o w found present c condition

end A32Assembler
