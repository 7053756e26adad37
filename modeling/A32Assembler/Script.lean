import A32Assembler.Assembler

/-!
# Scripts

A script is a list of calls, some of them inside scopes that set the condition. Running it keeps a
record: which words each call appended or changed, what it answered, or how it failed. A refused
call leaves the assembler as it was and the script goes on; a misuse ends the whole script.
-/

namespace A32Assembler

/-- A step of a script. -/
inductive Step
  /-- A call, or the error in building its operands. -/
  | call (c : Except Error Call)
  /-- Steps under a condition; the condition before the scope returns after it. -/
  | scope (c : Condition) (body : List Step)

/-- How a call changed the code. -/
structure Effect where
  appended : List Word
  /-- Words that were there before and differ now, with their positions. -/
  patched : List (Nat × Word)

/-- The changed words of a common beginning, by position. -/
def changedWords (position : Nat) : List Word → List Word → List (Nat × Word)
  | v :: vs, w :: ws =>
    if v = w then changedWords (position + 4) vs ws
    else (position, w) :: changedWords (position + 4) vs ws
  | _, _ => []

/-- The change from one code to another. -/
def Effect.between (before after : CodeBuffer) : Effect where
  appended := after.words.drop before.words.length
  patched := changedWords 0 before.words after.words

/-- The record of one step. -/
inductive Record
  | done (effect : Effect) (answer : Answer)
  | failed (e : Error)
  | scope (records : List Record)

/-- The record of a failure, and the assembler after it: unchanged by a refusal, gone after a
misuse, which gives it up while it unwinds. -/
def Error.outcome (a : Assembler) (e : Error) : Record × Option Assembler :=
  match e with
  | refusal _ => (.failed e, some a)
  | misuse _ => (.failed e, none)

/-- The record of a call and the assembler after it. -/
def Call.outcome (a : Assembler) (c : Call) : Record × Option Assembler :=
  match a.apply c with
  | .ok (answer, b) => (.done (.between a.buffer b.buffer) answer, some b)
  | .error e => e.outcome a

mutual

/-- The record of a step and the assembler after it, unless a misuse ended the script. -/
def Step.run (a : Assembler) : Step → Record × Option Assembler
  | .call (.ok c) => c.outcome a
  | .call (.error e) => e.outcome a
  | .scope c body =>
    let (records, last) := runSteps { a with condition := c } body
    (.scope records, last.map fun b ↦ { b with condition := a.condition })

/-- The records of the steps that ran and the assembler after all of them. -/
def runSteps (a : Assembler) : List Step → List Record × Option Assembler
  | [] => ([], some a)
  | s :: rest =>
    match s.run a with
    | (r, some b) =>
      let (records, last) := runSteps b rest
      (r :: records, last)
    | (r, none) => ([r], none)

end

end A32Assembler
