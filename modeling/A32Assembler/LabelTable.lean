import A32Assembler.Branch

/-!
# Labels

A label is an index into a table. Until it is bound, the table collects the branches that wait for
it; binding patches them all. Once it is bound, a branch to it is patched at once.
-/

namespace A32Assembler

/-- A place in the code that may not be known yet. -/
structure Label where
  index : Nat
deriving DecidableEq

/-- The first number that is no index: an index has 32 bits. -/
def Label.indexLimit : Nat := 0x100000000

/-- A branch that waits for its target. -/
structure PendingBranch where
  position : Nat
  kind : BranchKind
deriving DecidableEq

/-- What is known of a label. -/
inductive LabelState
  /-- Not bound; the branches wait in the order in which they were emitted. -/
  | unbound (pending : List PendingBranch)
  | bound (position : Nat)
deriving DecidableEq

/-- The branches that wait for a label. -/
def LabelState.pending : LabelState → List PendingBranch
  | unbound pending => pending
  | bound _ => []

/-- The labels of one piece of code. -/
structure LabelTable where
  states : Array LabelState

namespace LabelTable

/-- No labels. -/
def empty : LabelTable := ⟨#[]⟩

/-- The number of labels. -/
def size (t : LabelTable) : Nat := t.states.size

/-- One more state, unbound and with nothing waiting, and the label for it. The index of the label
is narrowed to 32 bits: once all indices are in use they come again, and then a label is the one
that had its index first. -/
def newLabel (t : LabelTable) : Label × LabelTable :=
  (⟨t.states.size % Label.indexLimit⟩, ⟨t.states.push (.unbound [])⟩)

/-- The state of a label; an index outside the table belongs to some other table. -/
def state (t : LabelTable) (l : Label) : Except Misuse LabelState :=
  match t.states[l.index]? with
  | some s => .ok s
  | none => .error (.foreignLabel l.index)

/-- The table with another state for a label. -/
def setState (t : LabelTable) (l : Label) (s : LabelState) : LabelTable :=
  ⟨t.states.setIfInBounds l.index s⟩

/-- Where a label is bound, if it is. -/
def position? (t : LabelTable) (l : Label) : Except Misuse (Option Nat) := do
  match ← t.state l with
  | .bound position => return some position
  | .unbound _ => return none

/-- Whether a label is bound. -/
def isBound (t : LabelTable) (l : Label) : Except Misuse Bool := do
  return (← t.position? l).isSome

/-- How many branches wait for a label. -/
def pendingCount (t : LabelTable) (l : Label) : Except Misuse Nat := do
  return (← t.state l).pending.length

/-- How many branches wait for any label. -/
def unresolved (t : LabelTable) : Nat := (t.states.toList.flatMap (·.pending)).length

/-- The branch at a position goes to a label: it is patched if the label is bound and waits if
not. -/
def link (t : LabelTable) (b : CodeBuffer) (l : Label) (position : Nat) (kind : BranchKind) :
    Except Misuse (LabelTable × CodeBuffer) := do
  match ← t.state l with
  | .bound target =>
    let b ← patchBranch b position kind target
    return (t, b)
  | .unbound pending => return (t.setState l (.unbound (pending ++ [⟨position, kind⟩])), b)

/-- The label stands at `target`, and all branches that waited for it are patched. -/
def bind (t : LabelTable) (b : CodeBuffer) (l : Label) (target : Nat) :
    Except Misuse (LabelTable × CodeBuffer) := do
  match ← t.state l with
  | .bound previous => throw (.alreadyBound l.index previous)
  | .unbound pending =>
    let b ← pending.foldlM (fun b p ↦ patchBranch b p.position p.kind target) b
    return (t.setState l (.bound target), b)

end LabelTable

end A32Assembler
