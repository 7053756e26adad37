import A32Assembler.Proofs.Check
import A32Assembler.Script

/-!
# What calls do

Every call that succeeds does one of a few things: it issues instructions, appends a word, emits a
branch, binds a label, makes a label, changes the settings, forgets the code, or only answers. What
holds of all calls is proved by these cases, and what holds of scripts by the steps that they take.
-/

namespace A32Assembler

namespace Call

/-- The instructions that a call issues, those of a branch aside. -/
def sequence (a : Assembler) : Call → Sequence
  | issue i => [.ok ⟨a.condition, i⟩]
  | expand r => r.sequence a.settings.features a.condition
  | shift s rd rm amount =>
    match CoreInstruction.shift s rd rm amount with
    | .ok i => [.ok ⟨a.condition, .core i⟩]
    | .error _ => []
  | moveSingle sd value =>
    match FloatInstruction.moveSingle sd value with
    | .ok i => [.ok ⟨a.condition, .float i⟩]
    | .error _ => []
  | moveDouble dd value =>
    match FloatInstruction.moveDouble dd value with
    | .ok i => [.ok ⟨a.condition, .float i⟩]
    | .error _ => []
  | _ => []

/-- Whether a call issues instructions. -/
def Issues : Call → Prop
  | issue _ | expand _ | shift .. | moveSingle .. | moveDouble .. => True
  | _ => False

/-- Whether a call only answers. -/
def Asks : Call → Prop
  | isBound _ | labelPosition _ | unresolved | code | listing | status => True
  | _ => False

/-- What a call that succeeds does. -/
inductive Does (a : Assembler) : Call → Assembler → Prop
  | issue {call : Call} {ws : List Word} (issues : call.Issues)
    (spelled : (call.sequence a).words = .ok ws) : Does a call (a.append ws)
  | word (w : Word) : Does a (.word w) (a.append [w])
  | branch {link : Bool} {l : Label} {b : Assembler} (done : a.branch link l = .ok b) :
    Does a (.branch link l) b
  | bind {l : Label} {b : Assembler} (done : a.bind l = .ok b) : Does a (.bind l) b
  | newLabel : Does a .newLabel a.newLabel.2
  | setFarBranches (far : Bool) :
    Does a (.setFarBranches far) { a with settings := { a.settings with farBranches := far } }
  | setFeatures (features : Features) :
    Does a (.setFeatures features) { a with settings := { a.settings with features } }
  | clear : Does a .clear a.clear
  | ask {call : Call} (asks : call.Asks) : Does a call a

/-- Every call but clearing leaves the condition as it is. -/
theorem Does.condition_eq {a b : Assembler} {call : Call} (does : call.Does a b)
    (kept : call ≠ .clear) : b.condition = a.condition := by
  cases does with
  | branch done =>
    simp only [Assembler.branch, Assembler.issueAll, bind_eq_ok, pure_eq_ok] at done
    obtain ⟨b1, ⟨ws, -, rfl⟩, -, -, rfl⟩ := done
    rfl
  | bind done =>
    simp only [Assembler.bind, bind_eq_ok, pure_eq_ok] at done
    obtain ⟨-, -, rfl⟩ := done
    rfl
  | clear => exact absurd rfl kept
  | issue | word | newLabel | setFarBranches | setFeatures | ask => rfl

end Call

namespace Assembler

variable {a b : Assembler} {call : Call} {answer : Answer}

/-- Words appended in two steps. -/
theorem append_append (a : Assembler) (ws vs : List Word) :
    (a.append ws).append vs = a.append (ws ++ vs) := by
  simp only [append, CodeBuffer.emitAll, List.foldl_append]

/-- An instruction is a sequence of one. -/
theorem issue_eq_issueAll (i : Instruction) : a.issue i = a.issueAll [.ok ⟨a.condition, i⟩] := by
  simp only [issue, issueAll, Sequence.words, List.mapM_cons, List.mapM_nil, Except.bind,
    Predicated.encode]
  cases i.encode a.condition <;> rfl

/-- A sequence that is issued has words, and they are appended. -/
theorem issueAll_eq_ok {s : Sequence} :
    a.issueAll s = .ok b ↔ ∃ ws, s.words = .ok ws ∧ a.append ws = b := by
  simp only [issueAll, bind_eq_ok, pure_eq_ok]

/-- Every call that succeeds does what is listed for it. -/
theorem apply_does (done : a.apply call = .ok (answer, b)) : call.Does a b := by
  have issued {c : Call} {s : Sequence} (issues : c.Issues) (same : c.sequence a = s)
      (done : a.issueAll s = .ok b) : c.Does a b := by
    obtain ⟨ws, spelled, rfl⟩ := issueAll_eq_ok.mp done
    exact .issue issues (same ▸ spelled)
  cases call <;>
    simp only [apply, liftMisuse_eq_ok, liftRefusal_eq_ok, bind_eq_ok, pure_eq_ok, Prod.mk.injEq,
      Except.ok.injEq, issue_eq_issueAll] at done
  case issue i =>
    obtain ⟨b, done, -, rfl⟩ := done
    exact issued trivial rfl done
  case expand r =>
    obtain ⟨b, done, -, rfl⟩ := done
    exact issued trivial rfl done
  case shift s rd rm amount =>
    obtain ⟨i, built, b, done, -, rfl⟩ := done
    exact issued trivial (by rw [Call.sequence, built]) done
  case moveSingle sd value =>
    obtain ⟨i, built, b, done, -, rfl⟩ := done
    exact issued trivial (by rw [Call.sequence, built]) done
  case moveDouble dd value =>
    obtain ⟨i, built, b, done, -, rfl⟩ := done
    exact issued trivial (by rw [Call.sequence, built]) done
  case word w => exact done.2 ▸ .word w
  case branch link l =>
    obtain ⟨b, done, -, rfl⟩ := done
    exact .branch done
  case bind l =>
    obtain ⟨b, done, -, rfl⟩ := done
    exact .bind done
  case newLabel => exact done.2 ▸ .newLabel
  case setFarBranches far => exact done.2 ▸ .setFarBranches far
  case setFeatures features => exact done.2 ▸ .setFeatures features
  case clear => exact done.2 ▸ .clear
  case isBound l =>
    obtain ⟨-, -, -, rfl⟩ := done
    exact .ask trivial
  case labelPosition l =>
    obtain ⟨-, -, -, rfl⟩ := done
    exact .ask trivial
  case code =>
    obtain ⟨-, -, -, rfl⟩ := done
    exact .ask trivial
  all_goals exact done.2 ▸ .ask trivial

end Assembler

variable {a b : Assembler} {r : Record}

/-- Only a refusal leaves an assembler, and it is the one before. -/
theorem Error.eq_of_outcome {e : Error} (ran : e.outcome a = (r, some b)) : b = a := by
  cases e with
  | refusal x => cases ran; rfl
  | misuse m => cases ran

/-- A step that is a call leaves what the call does, or it is refused and leaves everything as it
was. -/
theorem Step.run_call {c : Except Error Call} (ran : (call c).run a = (r, some b)) :
    (∃ made answer, c = .ok made ∧ a.apply made = .ok (answer, b)) ∨
      b = a ∧ ∀ made, c = .ok made → ∃ e, a.apply made = .error e := by
  cases c with
  | error e =>
    refine .inr ⟨Error.eq_of_outcome ran, ?_⟩
    rintro made ⟨⟩
  | ok made =>
    rw [run, Call.outcome] at ran
    cases done : a.apply made with
    | ok result =>
      rw [done] at ran
      cases ran
      exact .inl ⟨made, result.1, rfl, done⟩
    | error e =>
      rw [done] at ran
      refine .inr ⟨Error.eq_of_outcome ran, ?_⟩
      rintro _ ⟨⟩
      exact ⟨e, done⟩

/-- A scope leaves what its steps leave, under the condition before it. -/
theorem Step.run_scope {c : Condition} {body : List Step}
    (ran : (scope c body).run a = (r, some b)) :
    ∃ records last, runSteps { a with condition := c } body = (records, some last) ∧
      b = { last with condition := a.condition } := by
  rw [run] at ran
  obtain ⟨last, left, rfl⟩ := Option.map_eq_some_iff.mp (congrArg Prod.snd ran)
  exact ⟨_, last, Prod.ext rfl left, rfl⟩

/-- Steps that leave an assembler: so does the first, and the others go on from there. -/
theorem runSteps_cons {s : Step} {rest : List Step} {records : List Record}
    (ran : runSteps a (s :: rest) = (records, some b)) :
    ∃ r next records', s.run a = (r, some next) ∧ runSteps next rest = (records', some b) := by
  rw [runSteps] at ran
  cases first : s.run a with
  | mk r last =>
    cases last with
    | none => simp [first] at ran
    | some next =>
      simp only [first, Prod.mk.injEq] at ran
      exact ⟨r, next, _, rfl, Prod.ext rfl ran.2⟩

end A32Assembler
