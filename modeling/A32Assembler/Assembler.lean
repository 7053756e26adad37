import A32Assembler.LabelTable
import A32Assembler.Listing
import A32Assembler.Request

/-!
# The assembler

Code under construction: the words so far, the labels, the condition that the next instruction is
issued under, and the settings. Everything that can be done to it is a `Call`, and `Assembler.apply`
says what each call does, answers, or fails with.
-/

namespace A32Assembler

/-- What can be chosen for a piece of code. -/
structure Settings where
  /-- Every branch is written in its far form. -/
  farBranches : Bool
  /-- The extensions that sequences may rely on. -/
  features : Features
deriving DecidableEq

/-- Near branches, and the given extensions. -/
def Settings.near (features : Features) : Settings := ⟨false, features⟩

/-- Code under construction. -/
structure Assembler where
  buffer : CodeBuffer
  labels : LabelTable
  /-- The condition of the next instruction. -/
  condition : Condition
  settings : Settings

namespace Assembler

/-- No code yet. -/
def start (settings : Settings) : Assembler := ⟨.empty, .empty, .al, settings⟩

/-- The position of the next word. -/
def position (a : Assembler) : Nat := a.buffer.size

/-- The words so far. -/
def listing (a : Assembler) : Listing := ⟨a.buffer.words⟩

/-- Words appended as they are. -/
def append (a : Assembler) (ws : List Word) : Assembler := { a with buffer := a.buffer.emitAll ws }

/-- An instruction under the condition in force. -/
def issue (a : Assembler) (i : Instruction) : Except Misuse Assembler := do
  let w ← i.encode a.condition
  return a.append [w]

/-- A sequence of instructions that carry their own conditions. -/
def issueAll (a : Assembler) (s : Sequence) : Except Misuse Assembler := do
  let ws ← s.words
  return a.append ws

/-- The words of a branch whose displacement is still open. A far branch loads the displacement into
`IP` and adds the program counter to it, into the program counter or, to keep a return address, into
`IP` for a branch with link. -/
def openBranch (c : Condition) (kind : BranchKind) (link : Bool) : Sequence :=
  match kind, link with
  | .near, _ => Sequence.issueCore c [.branch link 0]
  | .far, false => Sequence.issueCore c
      [.moveWide false .ip 0, .moveWide true .ip 0, .arithmetic .add false .pc .pc (.register .ip)]
  | .far, true => Sequence.issueCore c
      [.moveWide false .ip 0, .moveWide true .ip 0, .arithmetic .add false .ip .pc (.register .ip),
        .branchExchange true .ip]

/-- The kind of the next branch. -/
def branchKind (a : Assembler) : BranchKind := if a.settings.farBranches then .far else .near

/-- A branch to a label, with link or without. -/
def branch (a : Assembler) (link : Bool) (l : Label) : Except Misuse Assembler := do
  let b ← a.issueAll (openBranch a.condition a.branchKind link)
  let (labels, buffer) ← b.labels.link b.buffer l a.position a.branchKind
  return { b with labels, buffer }

/-- The label stands at the position of the next word. -/
def bind (a : Assembler) (l : Label) : Except Misuse Assembler := do
  let (labels, buffer) ← a.labels.bind a.buffer l a.position
  return { a with labels, buffer }

/-- A fresh label. -/
def newLabel (a : Assembler) : Label × Assembler :=
  let (l, labels) := a.labels.newLabel
  (l, { a with labels })

/-- Everything but the settings forgotten. -/
def clear (a : Assembler) : Assembler := start a.settings

/-- The bytes of the code, once every branch has a target. -/
def code (a : Assembler) : Except Refusal (List Byte) :=
  if a.labels.unresolved = 0 then .ok a.buffer.bytes.toList
  else .error (.unresolved a.labels.unresolved)

/-- The assembler given up. Code with open branches must not be, except while an earlier misuse
unwinds: whatever that leaves behind is given up without a second one. -/
def discard (a : Assembler) (unwinding : Bool := false) : Except Misuse Unit :=
  if unwinding then .ok ()
  else require (a.labels.unresolved = 0) (.abandoned a.labels.unresolved)

end Assembler

/-- One thing to do with an assembler. -/
inductive Call
  /-- An instruction under the condition in force. -/
  | issue (i : Instruction)
  /-- A sequence under the condition in force. -/
  | expand (r : Request)
  /-- `mov rd, rm, shift #amount`, refused if the shift cannot take the amount. -/
  | shift (s : Shift) (rd rm : Register) (amount : Nat)
  /-- `vmov sd, #constant`, refused if the constant has no 8-bit form. -/
  | moveSingle (sd : SRegister) (value : Word)
  /-- `vmov dd, #constant`, refused if the constant has no 8-bit form. -/
  | moveDouble (dd : DRegister) (value : Doubleword)
  /-- A word as it is. -/
  | word (w : Word)
  | branch (link : Bool) (l : Label)
  | bind (l : Label)
  | newLabel
  | setFarBranches (far : Bool)
  | setFeatures (features : Features)
  | clear
  | isBound (l : Label)
  | labelPosition (l : Label)
  | unresolved
  /-- The bytes of the finished code. -/
  | code
  | listing
  | status

/-- What a call answers. -/
inductive Answer
  | nothing
  | label (l : Label)
  | truth (b : Bool)
  | position (p : Option Nat)
  | count (n : Nat)
  | code (bytes : List Byte)
  | listing (l : Listing)
  | status (a : Assembler)

namespace Assembler

/-- What a call does and answers. -/
def apply (a : Assembler) : Call → Except Error (Answer × Assembler)
  | .issue i => liftMisuse do
    return (.nothing, ← a.issue i)
  | .expand r => liftMisuse do
    return (.nothing, ← a.issueAll (r.sequence a.settings.features a.condition))
  | .shift s rd rm amount => do
    let i ← liftRefusal (CoreInstruction.shift s rd rm amount)
    return (.nothing, ← liftMisuse (a.issue i))
  | .moveSingle sd value => do
    let i ← liftRefusal (FloatInstruction.moveSingle sd value)
    return (.nothing, ← liftMisuse (a.issue i))
  | .moveDouble dd value => do
    let i ← liftRefusal (FloatInstruction.moveDouble dd value)
    return (.nothing, ← liftMisuse (a.issue i))
  | .word w => .ok (.nothing, a.append [w])
  | .branch link l => liftMisuse do
    return (.nothing, ← a.branch link l)
  | .bind l => liftMisuse do
    return (.nothing, ← a.bind l)
  | .newLabel =>
    let (l, b) := a.newLabel
    .ok (.label l, b)
  | .setFarBranches far =>
    .ok (.nothing, { a with settings := { a.settings with farBranches := far } })
  | .setFeatures features =>
    .ok (.nothing, { a with settings := { a.settings with features } })
  | .clear => .ok (.nothing, a.clear)
  | .isBound l => liftMisuse do
    return (.truth (← a.labels.isBound l), a)
  | .labelPosition l => liftMisuse do
    return (.position (← a.labels.position? l), a)
  | .unresolved => .ok (.count a.labels.unresolved, a)
  | .code => liftRefusal do
    return (.code (← a.code), a)
  | .listing => .ok (.listing a.listing, a)
  | .status => .ok (.status a, a)

/-- Calls one after another, answers put aside. The first that fails ends the run. -/
def applyAll (a : Assembler) (cs : List Call) : Except Error Assembler :=
  cs.foldlM (fun a c ↦ do return (← a.apply c).2) a

/-- What `body` does under a condition; the condition before it returns after it. -/
def within (a : Assembler) (c : Condition) (body : Assembler → Except Error Assembler) :
    Except Error Assembler := do
  let b ← body { a with condition := c }
  return { b with condition := a.condition }

end Assembler

/-- The listing of a run of calls on a fresh assembler. -/
def assemble (settings : Settings) (cs : List Call) : Except Error Listing := do
  let a ← (Assembler.start settings).applyAll cs
  return a.listing

end A32Assembler
