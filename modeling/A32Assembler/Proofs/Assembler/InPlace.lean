import A32Assembler.Proofs.Assembler.Calls

/-!
# Calls in place

The same calls on an assembler that is changed in place: every check comes where the program makes
it, and what was written before a check that fails stays written. A refusal is handed to the caller
together with the assembler as it then is. It turns out to be the one before the call.
-/

namespace A32Assembler

/-- A computation on an assembler that is changed in place. A misuse ends it; a refusal leaves the
assembler behind. -/
abbrev InPlace (α : Type) := ExceptT Refusal (StateT Assembler (Except Misuse)) α

namespace InPlace

variable {α β : Type} {a : Assembler}

/-- A check that can be misused. -/
def checked (x : Except Misuse α) : InPlace α := ExceptT.lift (StateT.lift x)

/-- A request that can be refused. -/
def offered (x : Except Refusal α) : InPlace α := ExceptT.mk (pure x)

/-- One more word. -/
def write (w : Word) : InPlace Unit := modify fun a ↦ a.append [w]

/-- An instruction under the condition in force. -/
def issue (i : Instruction) : InPlace Unit := do
  write (← checked (i.encode (← get).condition))

/-- The instructions of a sequence, one after another. -/
def issueAll : Sequence → InPlace Unit
  | [] => return
  | place :: rest => do
    write (← checked (← checked place).encode)
    issueAll rest

/-- A branch: its words, then its label. -/
def branch (link : Bool) (l : Label) : InPlace Unit := do
  let a ← get
  issueAll (Assembler.openBranch a.condition a.branchKind link)
  let b ← get
  let (labels, buffer) ← checked (b.labels.link b.buffer l a.position a.branchKind)
  set { b with labels, buffer }

/-- A label at the position of the next word. -/
def bind (l : Label) : InPlace Unit := do
  let a ← get
  let (labels, buffer) ← checked (a.labels.bind a.buffer l a.position)
  set { a with labels, buffer }

/-- What a computation leaves of an assembler. -/
def start (x : InPlace α) (a : Assembler) : Except Misuse (Except Refusal α × Assembler) :=
  x.run.run a

/-- Nothing is done. -/
theorem start_pure {v : α} : (pure v : InPlace α).start a = .ok (.ok v, a) := rfl

/-- One computation after another: a refusal of the first is that of both. -/
theorem start_andThen {x : InPlace α} {f : α → InPlace β} :
    (x >>= f).start a =
      match x.start a with
      | .ok (.ok v, b) => (f v).start b
      | .ok (.error r, b) => .ok (.error r, b)
      | .error m => .error m := by
  change Except.bind (x.start a) _ = _
  cases x.start a with
  | error m => rfl
  | ok p =>
    obtain ⟨r, b⟩ := p
    cases r <;> rfl

/-- The assembler is read. -/
theorem start_get : (get : InPlace Assembler).start a = .ok (.ok a, a) := rfl

/-- The assembler is replaced. -/
theorem start_set {b : Assembler} : (set b : InPlace PUnit).start a = .ok (.ok (), b) := rfl

/-- A check leaves the assembler as it is. -/
theorem start_checked {x : Except Misuse α} :
    (checked x).start a = x.map fun v ↦ (.ok v, a) := by
  cases x <;> rfl

/-- So does a request. -/
theorem start_offered {x : Except Refusal α} : (offered x).start a = .ok (x, a) := rfl

/-- An instruction is issued. -/
theorem start_issue (i : Instruction) :
    (issue i).start a = (a.issue i).map fun b ↦ (.ok (), b) := by
  simp only [issue, start_andThen, start_get, start_checked, Assembler.issue]
  cases i.encode a.condition <;> rfl

/-- A sequence is issued from left to right. -/
theorem issueAll_cons {p : Predicated} {w : Word} {rest : Sequence} (encoded : p.encode = .ok w) :
    a.issueAll (.ok p :: rest) = (a.append [w]).issueAll rest := by
  have first : Sequence.words (.ok p :: rest) = (rest.words).map (w :: ·) := by
    rw [Sequence.words, List.mapM_cons, Except.bind, encoded]
    rfl
  rw [Assembler.issueAll, Assembler.issueAll, first]
  cases rest.words with
  | error m => rfl
  | ok ws => exact congrArg Except.ok (Assembler.append_append a [w] ws).symm

/-- The words that a sequence has written when one of its checks fails do not matter: it fails as a
whole. -/
theorem start_issueAll (s : Sequence) :
    (issueAll s).start a = (a.issueAll s).map fun b ↦ (.ok (), b) := by
  induction s generalizing a with
  | nil => rfl
  | cons place rest ih =>
    rw [issueAll, start_andThen, start_checked]
    cases place with
    | error m => rfl
    | ok p =>
      simp only [Except.map, start_andThen, start_checked]
      cases encoded : p.encode with
      | error m =>
        rw [Assembler.issueAll, Sequence.words, List.mapM_cons, Except.bind, encoded]
        rfl
      | ok w => exact ih.trans (by rw [issueAll_cons encoded]; rfl)

/-- A branch is emitted. -/
theorem start_branch (link : Bool) (l : Label) :
    (branch link l).start a = (a.branch link l).map fun b ↦ (.ok (), b) := by
  simp only [branch, start_andThen, start_get, start_issueAll, Assembler.branch]
  cases a.issueAll (Assembler.openBranch a.condition a.branchKind link) with
  | error m => rfl
  | ok b =>
    dsimp only [Bind.bind, Except.bind, Except.map, start_checked, start_set]
    cases b.labels.link b.buffer l a.position a.branchKind <;> rfl

/-- A label is bound. -/
theorem start_bind (l : Label) :
    (bind l).start a = (a.bind l).map fun b ↦ (.ok (), b) := by
  simp only [bind, start_andThen, start_get, start_checked, start_set, Assembler.bind]
  cases a.labels.bind a.buffer l a.position <;> rfl

end InPlace

/-- A call in place. -/
def Call.perform : Call → InPlace Answer
  | issue i => do
    InPlace.issue i
    return .nothing
  | expand r => do
    let a ← get
    InPlace.issueAll (r.sequence a.settings.features a.condition)
    return .nothing
  | shift s rd rm amount => do
    InPlace.issue (← InPlace.offered (CoreInstruction.shift s rd rm amount))
    return .nothing
  | moveSingle sd value => do
    InPlace.issue (← InPlace.offered (FloatInstruction.moveSingle sd value))
    return .nothing
  | moveDouble dd value => do
    InPlace.issue (← InPlace.offered (FloatInstruction.moveDouble dd value))
    return .nothing
  | word w => do
    InPlace.write w
    return .nothing
  | branch link l => do
    InPlace.branch link l
    return .nothing
  | bind l => do
    InPlace.bind l
    return .nothing
  | newLabel => do
    let (l, b) := (← get).newLabel
    set b
    return .label l
  | setFarBranches far => do
    modify fun a ↦ { a with settings := { a.settings with farBranches := far } }
    return .nothing
  | setFeatures features => do
    modify fun a ↦ { a with settings := { a.settings with features } }
    return .nothing
  | clear => do
    modify Assembler.clear
    return .nothing
  | isBound l => do
    return .truth (← InPlace.checked ((← get).labels.isBound l))
  | labelPosition l => do
    return .position (← InPlace.checked ((← get).labels.position? l))
  | unresolved => return .count (← get).labels.unresolved
  | code => do
    return .code (← InPlace.offered (← get).code)
  | listing => return .listing (← get).listing
  | status => return .status (← get)

/-- What a call leaves of an assembler that is not changed in place: all or nothing. -/
def Assembler.after (a : Assembler) :
    Except Error (Answer × Assembler) → Except Misuse (Except Refusal Answer × Assembler)
  | .ok (answer, b) => .ok (.ok answer, b)
  | .error (.refusal r) => .ok (.error r, a)
  | .error (.misuse m) => .error m

namespace InPlace

variable {a : Assembler}

private theorem start_done {x : InPlace Unit} {y : Except Misuse Assembler}
    (same : x.start a = y.map fun b ↦ (.ok (), b)) :
    (do x; return .nothing : InPlace Answer).start a =
      a.after (liftMisuse do return (.nothing, ← y)) := by
  rw [start_andThen, same]
  cases y <;> rfl

private theorem start_asked {α : Type} (f : α → Answer) (x : Assembler → Except Misuse α) :
    (do return f (← checked (x (← get))) : InPlace Answer).start a =
      a.after (liftMisuse do return (f (← x a), a)) := by
  simp only [start_andThen, start_get, start_checked, start_pure]
  cases x a <;> rfl

-- The check comes before anything is written.
private theorem start_issue_offered {α : Type} (x : Except Refusal α) (f : α → Instruction) :
    (do issue (f (← offered x)); return .nothing : InPlace Answer).start a =
      a.after (do
        let i ← liftRefusal x
        return (.nothing, ← liftMisuse (a.issue (f i)))) := by
  simp only [start_andThen, start_offered, start_pure]
  cases x with
  | error r => rfl
  | ok i =>
    dsimp only [liftRefusal, Bind.bind, Except.bind]
    rw [start_issue]
    cases a.issue (f i) <;> rfl

end InPlace

/-- A call in place does all or nothing, and what it does is what it does otherwise. -/
theorem Call.start_perform (call : Call) (a : Assembler) :
    call.perform.start a = a.after (a.apply call) := by
  cases call with
  | issue i => exact InPlace.start_done (InPlace.start_issue i)
  | expand r => exact InPlace.start_done (InPlace.start_issueAll _)
  | branch link l => exact InPlace.start_done (InPlace.start_branch link l)
  | bind l => exact InPlace.start_done (InPlace.start_bind l)
  | shift s rd rm amount => exact InPlace.start_issue_offered _ Instruction.core
  | moveSingle sd value => exact InPlace.start_issue_offered _ Instruction.float
  | moveDouble dd value => exact InPlace.start_issue_offered _ Instruction.float
  | isBound l => exact InPlace.start_asked Answer.truth fun a ↦ a.labels.isBound l
  | labelPosition l => exact InPlace.start_asked Answer.position fun a ↦ a.labels.position? l
  | code =>
    simp only [perform, InPlace.start_andThen, InPlace.start_get, InPlace.start_offered,
      InPlace.start_pure, Assembler.apply]
    cases a.code <;> rfl
  | _ => rfl

end A32Assembler
