import A32Assembler.Calculator.Compiler
import Mathlib.Data.List.Nodup

/-!
# The log of a compilation

The log writes the calls of an emission in the same order. Besides, it says which temporary is taken
and released at each point, and which registers hold a left operand whose right operand is still
being compiled. The temporaries held are always the first of their list, as many as the compiler
counts.
-/

namespace A32Assembler.Calculator

/-- What a compiler does at a time. -/
inductive Action
  | write (call : Call)
  | take (r : Register)
  | release (r : Register)

namespace Action

/-- The call that is written, if one is. -/
def call? : Action → Option Call
  | write call => some call
  | take _ | release _ => none

/-- The temporaries held after an action, if some were held before. -/
def hold (held : List Register) : Action → List Register
  | write _ => held
  | take r => held ++ [r]
  | release r => held.erase r

end Action

/-- A point of a compilation. -/
structure Point where
  action : Action
  /-- The number of temporaries in use after the action, as the compiler counts them. -/
  inUse : Nat
  /-- The registers of the left operands whose right operand is being compiled, the innermost
  first. -/
  pending : List Register

/-- The points of a compilation, and what an emission says of its end. -/
structure Log where
  points : List Point
  inUse : Nat
  exhausted : Bool

namespace Log

/-- A log and what follows it, unless it is exhausted. -/
def andThen (l : Log) (next : Nat → Log) : Log :=
  if l.exhausted then l
  else
    let f := next l.inUse
    { f with points := l.points ++ f.points }

/-- Some calls are written. -/
def writes (pending : List Register) (calls : List Call) (inUse : Nat) : Log :=
  ⟨calls.map fun call ↦ ⟨.write call, inUse, pending⟩, inUse, false⟩

/-- The next temporary is taken for what follows. -/
def take (pending : List Register) (inUse : Nat) (next : Register → Nat → Log) : Log :=
  match temporaries[inUse]? with
  | some r =>
    let f := next r (inUse + 1)
    { f with points := ⟨.take r, inUse + 1, pending⟩ :: f.points }
  | none => ⟨[], inUse, true⟩

/-- A temporary is released. -/
def release (pending : List Register) (r : Register) (inUse : Nat) : Log :=
  ⟨[⟨.release r, inUse - 1, pending⟩], inUse - 1, false⟩

/-- The emission of the calls that are written. -/
def emission (l : Log) : Emission := ⟨l.points.filterMap (·.action.call?), l.inUse, l.exhausted⟩

end Log

/-- The log of the code that combines two operands. -/
def combineLog (pending : List Register) (op : Operator) (result right : Register) (inUse : Nat) :
    Log :=
  match op with
  | .remainder =>
    .take pending inUse fun quotient inUse ↦
      (Log.writes pending [.expand (.divide true quotient result right ⟨0⟩ ⟨1⟩),
        .issue (.core (.multiplyAccumulate true result quotient right result))] inUse).andThen
          (.release pending quotient)
  | op => .writes pending (combine op result right inUse).calls inUse

/-- The log of the code of an expression. While the right operand of an operation is compiled, the
left one waits in the register of the result. -/
def exprLog (pending : List Register) (result : Register) : Expr → Nat → Log
  | .number value, inUse => .writes pending [.expand (.loadImmediate result value)] inUse
  | .binary left op right, inUse =>
    (exprLog pending result left inUse).andThen fun inUse ↦
      .take pending inUse fun r inUse ↦
        ((exprLog (result :: pending) r right inUse).andThen
          (combineLog pending op result r)).andThen (.release pending r)

section Emission

variable {pending : List Register} {k : Nat} {result right : Register}

namespace Log

/-- The emission of one log behind another is that of one emission behind another. -/
theorem emission_andThen (l : Log) (next : Nat → Log) :
    (l.andThen next).emission = l.emission.andThen fun k ↦ (next k).emission := by
  unfold andThen Emission.andThen
  change _ = if l.exhausted then l.emission else _
  split
  · rfl
  · simp only [emission, List.filterMap_append]

/-- The log of calls that are written has the emission that runs them. -/
theorem emission_writes (calls : List Call) :
    (writes pending calls k).emission = .run calls k := by
  simp [emission, writes, Emission.run, List.filterMap_map, Action.call?]

/-- The log that takes a temporary has the emission that takes one. -/
theorem emission_take (next : Register → Nat → Log) :
    (take pending k next).emission = .take k fun r j ↦ (next r j).emission := by
  unfold take Emission.take
  cases temporaries[k]? <;> rfl

end Log

/-- The log of an operation is that of its emission. -/
theorem emission_combineLog (op : Operator) :
    (combineLog pending op result right k).emission = combine op result right k := by
  cases op with
  | remainder =>
    simp only [combineLog, Log.emission_take, Log.emission_andThen, Log.emission_writes]
    rfl
  | add | subtract | multiply | divide => exact Log.emission_writes _

/-- The log of an expression is that of its emission. -/
theorem emission_exprLog (e : Expr) :
    (exprLog pending result e k).emission = emitExpr result e k := by
  induction e generalizing pending result k with
  | number value => exact Log.emission_writes _
  | binary left op right ihl ihr =>
    simp only [exprLog, emitExpr, Log.emission_andThen, Log.emission_take, ihl, ihr,
      emission_combineLog]
    rfl

end Emission

/-- The temporaries held after some points. -/
def heldAfter (held : List Register) (points : List Point) : List Register :=
  points.foldl (fun held x ↦ x.action.hold held) held

/-- At every point, the temporaries held are the first of their list, as many as are counted. -/
def Stacked (held : List Register) : List Point → Prop
  | [] => True
  | x :: xs => x.action.hold held = temporaries.take x.inUse ∧ Stacked (x.action.hold held) xs

/-- Started with the first `k` temporaries in use, a compilation keeps to a stack of temporaries,
and it ends with the same in use unless it is exhausted. -/
structure Log.Disciplined (l : Log) (k : Nat) : Prop where
  stacked : Stacked (temporaries.take k) l.points
  held_eq : heldAfter (temporaries.take k) l.points = temporaries.take l.inUse
  back : l.exhausted = false → l.inUse = k

section Discipline

variable {pending held : List Register} {k : Nat} {result right : Register} {xs ys : List Point}

/-- Points in a row. -/
theorem stacked_append :
    Stacked held (xs ++ ys) ↔ Stacked held xs ∧ Stacked (heldAfter held xs) ys := by
  induction xs generalizing held with
  | nil => simp [Stacked, heldAfter]
  | cons x xs ih => simp only [List.cons_append, Stacked, ih, heldAfter, List.foldl_cons, and_assoc]

/-- What is held after points in a row. -/
theorem heldAfter_append : heldAfter held (xs ++ ys) = heldAfter (heldAfter held xs) ys :=
  List.foldl_append

/-- What is held at a point. -/
theorem Stacked.heldAfter_eq (stacked : Stacked held xs) {before after : List Point} {x : Point}
    (there : xs = before ++ x :: after) :
    heldAfter held (before ++ [x]) = temporaries.take x.inUse := by
  subst there
  obtain ⟨-, here, -⟩ := stacked_append.mp stacked
  rw [heldAfter_append]
  exact here

/-- Taking the next temporary. -/
theorem take_temporaries_succ {q : Register} (found : temporaries[k]? = some q) :
    temporaries.take (k + 1) = temporaries.take k ++ [q] := by
  rw [List.take_add_one, found]
  rfl

/-- The temporaries in use are others than the one taken next. -/
theorem not_mem_take_temporaries {q : Register} (found : temporaries[k]? = some q) :
    q ∉ temporaries.take k := by
  have distinct : (temporaries.take (k + 1)).Nodup := (by decide : temporaries.Nodup).take
  rw [take_temporaries_succ found, List.nodup_append] at distinct
  exact fun mem ↦ distinct.2.2 q mem q (List.mem_singleton_self q) rfl

namespace Log.Disciplined

/-- Writing takes no temporary. -/
theorem writes (calls : List Call) : (Log.writes pending calls k).Disciplined k := by
  have held_eq : heldAfter (temporaries.take k) (Log.writes pending calls k).points =
      temporaries.take k := by
    induction calls with
    | nil => rfl
    | cons call calls ih => exact ih
  refine ⟨?_, held_eq, fun _ ↦ rfl⟩
  induction calls with
  | nil => trivial
  | cons call calls ih => exact ⟨rfl, ih held_eq⟩

/-- One log and then another. -/
theorem andThen {l : Log} {next : Nat → Log} (first : l.Disciplined k)
    (second : (next k).Disciplined k) : (l.andThen next).Disciplined k := by
  unfold Log.andThen
  split
  · exact first
  · next completed =>
    have same := first.back (by simpa using completed)
    have held_eq := first.held_eq
    rw [same] at held_eq ⊢
    refine ⟨stacked_append.mpr ⟨first.stacked, ?_⟩, ?_, second.back⟩
    · rw [held_eq]
      exact second.stacked
    · rw [heldAfter_append, held_eq]
      exact second.held_eq

/-- A log for which one more temporary is taken. -/
theorem taken {next : Register → Nat → Log}
    (h : ∀ r, temporaries[k]? = some r → (next r (k + 1)).Disciplined (k + 1)) :
    (Log.take pending k fun r j ↦ (next r j).andThen (.release pending r)).Disciplined k := by
  unfold Log.take
  cases found : temporaries[k]? with
  | none => exact ⟨trivial, rfl, nofun⟩
  | some r =>
    obtain ⟨stacked, held_eq, back⟩ := h r found
    have taken := take_temporaries_succ found
    have released : (temporaries.take (k + 1)).erase r = temporaries.take k := by
      rw [taken, List.erase_append_right _ (not_mem_take_temporaries found)]
      simp
    rw [taken] at stacked held_eq
    dsimp only
    unfold Log.andThen
    split
    · next exhausted =>
      exact ⟨⟨taken.symm, stacked⟩, held_eq, fun completed ↦ by simp [exhausted] at completed⟩
    · next completed =>
      have same := back (by simpa using completed)
      rw [same] at held_eq ⊢
      refine ⟨⟨taken.symm, stacked_append.mpr ⟨stacked, ?_⟩⟩, ?_, fun _ ↦ rfl⟩
      · change Stacked (heldAfter (temporaries.take k ++ [r]) _) _
        rw [held_eq]
        exact ⟨released, trivial⟩
      · change heldAfter (temporaries.take k ++ [r]) (_ ++ _) = _
        rw [heldAfter_append, held_eq]
        exact released

end Log.Disciplined

/-- Combining two operands keeps to the stack. -/
theorem combineLog_disciplined (op : Operator) :
    (combineLog pending op result right k).Disciplined k := by
  cases op with
  | remainder => exact .taken fun _ _ ↦ .writes _
  | add | subtract | multiply | divide => exact .writes _

/-- The code of an expression keeps to the stack. -/
theorem exprLog_disciplined (e : Expr) : (exprLog pending result e k).Disciplined k := by
  induction e generalizing pending result k with
  | number value => exact .writes _
  | binary left op right ihl ihr =>
    exact ihl.andThen (.taken fun _ _ ↦ ihr.andThen (combineLog_disciplined op))

end Discipline

end A32Assembler.Calculator
