import A32Assembler.Proofs.Machine.Decode
import A32Assembler.Proofs.Machine.Execute

/-!
# Running code

Code is fetched from a memory of its own, which running it cannot change. A step fetches the word at
the program counter, decodes it and executes it. Code without jumps is executed from its first word
to its last, wherever it lies.
-/

namespace A32Assembler

/-- The instruction words by address; an address without a word cannot be fetched from. -/
abbrev CodeMemory := Word → Option Word

namespace CodeMemory

/-- The words of a list lie one after another from an address on. -/
def Holds (m : CodeMemory) (a : Word) (ws : List Word) : Prop :=
  ∀ (i : Nat) (w : Word), ws[i]? = some w → m (a + BitVec.ofNat 32 (4 * i)) = some w

variable {m : CodeMemory} {a w : Word} {ws vs : List Word}

/-- The first word lies at the address itself. -/
theorem Holds.head (h : m.Holds a (w :: ws)) : m a = some w := by
  simpa using h 0 w rfl

/-- A part of the words lies behind those before it. -/
theorem Holds.drop (h : m.Holds a ws) (n : Nat) :
    m.Holds (a + BitVec.ofNat 32 (4 * n)) (ws.drop n) := by
  intro i w hw
  rw [List.getElem?_drop] at hw
  rw [BitVec.add_assoc, ← BitVec.ofNat_add, ← Nat.mul_add]
  exact h (n + i) w hw

/-- A beginning of the words lies at the same address. -/
theorem Holds.left (h : m.Holds a (ws ++ vs)) : m.Holds a ws := by
  intro i w hw
  obtain ⟨inside, rfl⟩ := List.getElem?_eq_some_iff.mp hw
  exact h i _ (by rw [List.getElem?_append_left inside, List.getElem?_eq_getElem inside])

/-- The rest of the words lies behind the beginning. -/
theorem Holds.right (h : m.Holds a (ws ++ vs)) :
    m.Holds (a + BitVec.ofNat 32 (4 * ws.length)) vs := by
  simpa using h.drop ws.length

/-- A memory that holds the words of a list from an address on, and no others. -/
def ofWords (a : Word) (ws : List Word) : CodeMemory := fun b ↦
  if (b - a).toNat % 4 = 0 then ws[(b - a).toNat / 4]? else none

/-- A list that fits into the address space can be held from any address on. -/
theorem holds_ofWords (short : 4 * ws.length ≤ 2 ^ 32) : (ofWords a ws).Holds a ws := by
  intro i w hw
  obtain ⟨inside, -⟩ := List.getElem?_eq_some_iff.mp hw
  have distance : (a + BitVec.ofNat 32 (4 * i) - a).toNat = 4 * i := by
    have cancel : a + BitVec.ofNat 32 (4 * i) - a = BitVec.ofNat 32 (4 * i) := by bv_omega
    rw [cancel, BitVec.toNat_ofNat, Nat.mod_eq_of_lt (by omega)]
  rw [ofWords, distance, if_pos (by omega), Nat.mul_div_cancel_left i (by decide), hw]

end CodeMemory

namespace Machine

/-- One instruction: the word at the program counter is fetched, decoded and executed. -/
def step (u : FloatUnit) (m : CodeMemory) (s : State) : Option State := do
  let w ← m (s.core .pc)
  let p ← decode w
  p.execute u s

/-- Several instructions one after another. -/
def run (u : FloatUnit) (m : CodeMemory) : Nat → State → Option State
  | 0, s => some s
  | n + 1, s => do
    let t ← step u m s
    run u m n t

variable {u : FloatUnit} {m : CodeMemory} {s t r : State} {w : Word} {ws vs : List Word}

/-- A run of one step. -/
theorem run_one : run u m 1 s = step u m s := by
  simp [run]

/-- A run in two parts. -/
theorem run_add {n k : Nat} (first : run u m n s = some t) (second : run u m k t = some r) :
    run u m (n + k) s = some r := by
  induction n generalizing s with
  | zero =>
    cases first
    rwa [Nat.zero_add]
  | succ n ih =>
    obtain ⟨s', one, rest⟩ := Option.bind_eq_some_iff.mp first
    rw [Nat.succ_add]
    exact Option.bind_eq_some_iff.mpr ⟨s', one, ih rest⟩

/-- Running the words one after another, wherever they lie, leads from `s` to `t`, and `t` is about
to run what follows them. -/
structure Executes (u : FloatUnit) (ws : List Word) (s t : State) : Prop where
  run_eq : ∀ m : CodeMemory, m.Holds (s.core .pc) ws → run u m ws.length s = some t
  pc_eq : t.core .pc = s.core .pc + BitVec.ofNat 32 (4 * ws.length)

/-- No words do nothing. -/
theorem Executes.nil : Executes u [] s s := ⟨fun _ _ ↦ rfl, by simp⟩

/-- The effect of code is the effect of its parts. -/
theorem Executes.append (first : Executes u ws s t) (second : Executes u vs t r) :
    Executes u (ws ++ vs) s r := by
  constructor
  · intro m held
    rw [List.length_append]
    apply run_add (first.run_eq m held.left)
    apply second.run_eq m
    rw [first.pc_eq]
    exact held.right
  · rw [second.pc_eq, first.pc_eq, BitVec.add_assoc, ← BitVec.ofNat_add, ← Nat.mul_add,
      List.length_append]

/-- One word does what the instruction it stands for does. -/
theorem step_of_decode {p : Predicated} (fetched : m (s.core .pc) = some w)
    (decoded : decode w = some p) : step u m s = p.execute u s := by
  simp only [step, fetched, decoded, Option.bind_eq_bind, Option.bind_some]

/-- A word whose instruction does not jump. -/
theorem Executes.single {p : Predicated} (decoded : decode w = some p)
    (executed : p.execute u s = some t) (next : t.core .pc = s.core .pc + 4) :
    Executes u [w] s t := by
  constructor
  · intro m held
    have one : step u m s = some t := (step_of_decode held.head decoded).trans executed
    simp only [List.length_singleton, run, one, Option.bind_eq_bind, Option.bind_some]
  · simpa using next

/-- A word in front of code. -/
theorem Executes.cons (first : Executes u [w] s t) (rest : Executes u ws t r) :
    Executes u (w :: ws) s r := first.append rest

/-- A word whose condition does not hold is passed over. -/
theorem Executes.skip {c : Condition} {i : Instruction} (decoded : decode w = some ⟨c, i⟩)
    (fails : c.holds s.flags = false) : Executes u [w] s s.advance := by
  apply Executes.single decoded
  · simp [Predicated.execute, fails]
  · simp

/-- A word whose condition holds does what its instruction does. -/
theorem Executes.take {c : Condition} {i : Instruction} (decoded : decode w = some ⟨c, i⟩)
    (holds : c.holds s.flags = true) (executed : i.execute u s = some t)
    (next : t.core .pc = s.core .pc + 4) : Executes u [w] s t := by
  apply Executes.single decoded _ next
  simp [Predicated.execute, holds, executed]

end Machine

end A32Assembler
