import A32Assembler.Proofs.Machine.Cycle
import Mathlib.Data.List.Forall2

/-!
# Code under one condition

Every word of predicated code tests the condition anew. If no word but the last changes the flags or
jumps, all of them see the same flags: either they do together what the same code does
unconditionally, or they are all passed over.
-/

namespace A32Assembler

open Machine

namespace Machine.State

/-- The state behind some words that are passed over. -/
def pass (s : State) (n : Nat) : State := s.write .pc (s.core .pc + BitVec.ofNat 32 (4 * n))

/-- No words are passed over by staying. -/
theorem pass_zero (s : State) : s.pass 0 = s := by
  have stays : s.core .pc + BitVec.ofNat 32 (4 * 0) = s.core .pc := BitVec.add_zero _
  rw [pass, stays, write, Function.update_eq_self]

/-- Words are passed over one after another. -/
theorem pass_advance (s : State) (n : Nat) : s.advance.pass n = s.pass (n + 1) := by
  have onward : s.core .pc + 4 + BitVec.ofNat 32 (4 * n) =
      s.core .pc + BitVec.ofNat 32 (4 * (n + 1)) := by
    rw [Nat.mul_succ, Nat.add_comm, BitVec.ofNat_add, BitVec.add_assoc]
    rfl
  rw [pass, core_advance, if_pos rfl, onward]
  simp [pass, advance, write]

end Machine.State

/-- An instruction that, whenever it can be performed, leaves the flags alone and goes on to the
next. -/
def Instruction.Steady (u : FloatUnit) (i : Instruction) : Prop :=
  ∀ s t, i.perform u s = some t → t.flags = s.flags ∧ t.core .pc = s.core .pc + 4

/-- The words are read as the instructions under a condition. -/
def Decodes (c : Condition) : List Word → List Instruction → Prop :=
  List.Forall₂ fun w i ↦ decodeAny w = some ⟨c, i⟩

namespace Machine

/-- In every state, the first words do what the others do if the condition holds, and are passed
over if it does not. What cannot be run to the end on one side cannot be on the other. -/
def AllOrNothing (u : FloatUnit) (c : Condition) (ws vs : List Word) : Prop :=
  ∀ (m m' : CodeMemory) (s : State), m.Holds (s.core .pc) ws → m'.Holds (s.core .pc) vs →
    cycles u m ws.length s =
      if c.holds s.flags then cycles u m' vs.length s else some (s.pass ws.length)

variable {u : FloatUnit} {c : Condition} {ws vs : List Word} {is : List Instruction}

private theorem holds_tail {m : CodeMemory} {a w : Word} (held : m.Holds a (w :: ws)) :
    m.Holds (a + 4) ws := held.drop 1

/-- Predicated code whose instructions are steady up to the last does all that it does without a
condition, or nothing. -/
theorem allOrNothing (predicated : Decodes c ws is) (always : Decodes .al vs is)
    (steady : ∀ i ∈ is.dropLast, i.Steady u) : AllOrNothing u c ws vs := by
  intro m m' s held held'
  induction predicated generalizing vs s with
  | nil =>
    cases always
    rw [List.length_nil, s.pass_zero]
    exact (ite_self _).symm
  | @cons w i ws is decoded predicated ih =>
    obtain _ | ⟨decoded', always⟩ := always
    have first := cycle_of_decodeAny (u := u) held.head decoded
    have first' := cycle_of_decodeAny (u := u) held'.head decoded'
    rw [Predicated.perform] at first first'
    simp only [List.length_cons, cycles, first, first', Condition.holds_al, if_true]
    have later : ∀ j ∈ is.dropLast, j.Steady u := by
      intro j mem
      cases is with
      | nil => cases mem
      | cons k is => exact steady j (List.mem_cons_of_mem i mem)
    cases holds : c.holds s.flags with
    | false =>
      -- the flags are as they were, so the rest is passed over, too
      have rest := ih always later s.advance (by simpa using holds_tail held)
        (by simpa using holds_tail held')
      rw [State.flags_advance, holds, State.pass_advance] at rest
      simpa using rest
    | true =>
      cases performed : i.perform u s with
      | none => rfl
      | some t =>
        cases is with
        | nil =>
          cases predicated
          cases always
          rfl
        | cons j is =>
          obtain ⟨flags, next⟩ := steady i List.mem_cons_self s t performed
          have rest := ih always later t (by simpa only [next] using holds_tail held)
            (by simpa only [next] using holds_tail held')
          rw [flags, holds] at rest
          simpa using rest

end Machine

end A32Assembler
