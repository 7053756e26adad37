import A32Assembler.Proofs.Decoding.Families
import A32Assembler.Proofs.Machine.Run
import A32Assembler.Proofs.Machine.Transfer

/-!
# Running code with transfers

A cycle fetches the word at the program counter, decodes it as an instruction of any family and
performs it. What runs without transfers runs in the same way with them.
-/

namespace A32Assembler

namespace Machine

variable {u : FloatUnit} {m : CodeMemory} {s t r : State} {w : Word} {ws vs : List Word}

/-- One instruction of any family. -/
def cycle (u : FloatUnit) (m : CodeMemory) (s : State) : Option State := do
  let w ← m (s.core .pc)
  let p ← decodeAny w
  p.perform u s

/-- Several instructions one after another. -/
def cycles (u : FloatUnit) (m : CodeMemory) : Nat → State → Option State
  | 0, s => some s
  | n + 1, s => do
    let t ← cycle u m s
    cycles u m n t

/-- One cycle does what the instruction does that the word stands for. -/
theorem cycle_of_decodeAny {p : Predicated} (fetched : m (s.core .pc) = some w)
    (decoded : decodeAny w = some p) : cycle u m s = p.perform u s := by
  simp only [cycle, fetched, decoded, Option.bind_eq_bind, Option.bind_some]

/-- A step without transfers is a cycle. -/
theorem cycle_of_step (h : step u m s = some t) : cycle u m s = some t := by
  obtain ⟨w, fetched, h⟩ := Option.bind_eq_some_iff.mp h
  obtain ⟨p, decoded, executed⟩ := Option.bind_eq_some_iff.mp h
  rw [cycle_of_decodeAny fetched (Decode.decodeAny_of_decode decoded)]
  exact Predicated.perform_of_execute executed

/-- A run without transfers. -/
theorem cycles_of_run {n : Nat} (h : run u m n s = some t) : cycles u m n s = some t := by
  induction n generalizing s with
  | zero => exact h
  | succ n ih =>
    obtain ⟨s', one, rest⟩ := Option.bind_eq_some_iff.mp h
    exact Option.bind_eq_some_iff.mpr ⟨s', cycle_of_step one, ih rest⟩

/-- Cycles in two parts. -/
theorem cycles_add {n k : Nat} (first : cycles u m n s = some t) :
    cycles u m (n + k) s = cycles u m k t := by
  induction n generalizing s with
  | zero =>
    cases first
    rw [Nat.zero_add]
  | succ n ih =>
    obtain ⟨s', one, rest⟩ := Option.bind_eq_some_iff.mp first
    rw [Nat.succ_add, cycles, one]
    exact ih rest

/-- Running the words one after another, wherever they lie, leads from `s` to `t`, and `t` is about
to run what follows them; the words may transfer data. -/
structure Completes (u : FloatUnit) (ws : List Word) (s t : State) : Prop where
  cycles_eq : ∀ m : CodeMemory, m.Holds (s.core .pc) ws → cycles u m ws.length s = some t
  pc_eq : t.core .pc = s.core .pc + BitVec.ofNat 32 (4 * ws.length)

namespace Completes

/-- Code that executes completes. -/
theorem of_executes (h : Executes u ws s t) : Completes u ws s t :=
  ⟨fun m held ↦ cycles_of_run (h.run_eq m held), h.pc_eq⟩

/-- A word whose instruction does not jump. -/
theorem single {p : Predicated} (decoded : decodeAny w = some p)
    (performed : p.perform u s = some t) (next : t.core .pc = s.core .pc + 4) :
    Completes u [w] s t := by
  constructor
  · intro m held
    have one : cycle u m s = some t := (cycle_of_decodeAny held.head decoded).trans performed
    simp only [List.length_singleton, cycles, one, Option.bind_eq_bind, Option.bind_some]
  · simpa using next

/-- The effect of code is the effect of its parts. -/
theorem append (first : Completes u ws s t) (second : Completes u vs t r) :
    Completes u (ws ++ vs) s r := by
  constructor
  · intro m held
    rw [List.length_append, cycles_add (first.cycles_eq m held.left)]
    apply second.cycles_eq m
    rw [first.pc_eq]
    exact held.right
  · rw [second.pc_eq, first.pc_eq, BitVec.add_assoc, ← BitVec.ofNat_add, ← Nat.mul_add,
      List.length_append]

/-- Code that fits into the address space leads to one state only. -/
theorem unique (short : 4 * ws.length ≤ 2 ^ 32) (h : Completes u ws s t)
    (h' : Completes u ws s r) : t = r := by
  have held : CodeMemory.Holds (.ofWords (s.core .pc) ws) (s.core .pc) ws :=
    CodeMemory.holds_ofWords short
  exact Option.some.inj ((h.cycles_eq _ held).symm.trans (h'.cycles_eq _ held))

end Completes

/-- What code is for: the states that it may be run from, and what is to hold of such a state and
the one behind the code. -/
structure Contract where
  possible : State → Prop
  result : State → State → Prop

/-- A contract for every state. -/
def Contract.always (result : State → State → Prop) : Contract := ⟨fun _ ↦ True, result⟩

/-- Code under a condition fulfils a contract if it runs to its end from every state that allows it
and in which the condition holds, with the result that was agreed. -/
def Contract.Met (k : Contract) (u : FloatUnit) (c : Condition) (ws : List Word) : Prop :=
  ∀ s, c.holds s.flags → k.possible s → ∃ t, Completes u ws s t ∧ k.result s t

/-- One run with another result breaks a contract. -/
theorem Contract.not_met {k : Contract} {c : Condition} (short : 4 * ws.length ≤ 2 ^ 32)
    (holds : c.holds s.flags) (possible : k.possible s) (completes : Completes u ws s t)
    (other : ¬ k.result s t) : ¬ k.Met u c ws := by
  intro met
  obtain ⟨r, completes', result⟩ := met s holds possible
  exact other (completes'.unique short completes ▸ result)

end Machine

end A32Assembler
