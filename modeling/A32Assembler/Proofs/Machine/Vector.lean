import A32Assembler.Proofs.Machine.Cycle
import A32Assembler.Proofs.Sequence.Conditions

/-!
# Running vector code

A quadword register is two doubles, the even one its lower half. The bitwise operations on quadword
registers are the machine's own; what the lanes of the others compute is left to the vector unit.
Vector code never jumps, so running it changes the registers in the order of its instructions and
nothing else.
-/

namespace A32Assembler

/-- The pattern of a quadword register. -/
abbrev Quadword := BitVec 128

/-- The quadword registers as one value each. -/
abbrev Bank := QRegister → Quadword

namespace QRegister

/-- The double that is the lower half of a quadword register. -/
def lower (q : QRegister) : DRegister := ⟨q.number * 2⟩

/-- The double that is the upper half of a quadword register. -/
def upper (q : QRegister) : DRegister := ⟨q.number * 2 + 1⟩

variable {p q : QRegister}

/-- No lower half is an upper one. -/
theorem lower_ne_upper : p.lower ≠ q.upper := by
  intro same
  have numbers : p.number * 2 = q.number * 2 + 1 := congrArg FloatRegister.number same
  bv_omega

/-- Registers that exist share no lower half. -/
theorem lower_inj (hp : p.number < 16) (hq : q.number < 16) : p.lower = q.lower ↔ p = q := by
  refine ⟨fun same ↦ ?_, congrArg lower⟩
  have numbers : p.number * 2 = q.number * 2 := congrArg FloatRegister.number same
  exact congrArg QRegister.mk (by bv_omega)

/-- Registers that exist share no upper half. -/
theorem upper_inj (hp : p.number < 16) (hq : q.number < 16) : p.upper = q.upper ↔ p = q := by
  refine ⟨fun same ↦ ?_, congrArg upper⟩
  have numbers : p.number * 2 + 1 = q.number * 2 + 1 := congrArg FloatRegister.number same
  exact congrArg QRegister.mk (by bv_omega)

/-- A register has a field exactly if it exists. -/
theorem exists_split : (∃ x, q.split = .ok x) ↔ q.number < 16 := by
  simp only [split, lowDouble, FloatRegister.split, bind_eq_ok]
  constructor
  · rintro ⟨x, d, low, halved⟩
    split at low
    · next small =>
      cases low
      split at halved
      · bv_omega
      · cases halved
    · cases low
  · intro small
    have whole : q.number < 128 := by bv_omega
    have double : q.number * 2 < 32 := by bv_omega
    exact ⟨_, _, if_pos whole, if_pos double⟩

end QRegister

namespace Machine

/-- The operations of a vector unit: what the lanes of an operation compute, for all lanes of a
register together. -/
structure VectorUnit where
  quad (op : QuadOp) (x y : Quadword) : Quadword
  unary (op : QuadUnaryOp) (x : Quadword) : Quadword

namespace State

variable {s : State} {p q : QRegister} {x : Quadword}

/-- The pattern in a quadword register. -/
def quad (s : State) (q : QRegister) : Quadword := s.double q.upper ++ s.double q.lower

/-- Another pattern in a quadword register. -/
def writeQuad (s : State) (q : QRegister) (x : Quadword) : State :=
  (s.writeDouble q.lower (x.extractLsb' 0 64)).writeDouble q.upper (x.extractLsb' 64 64)

/-- Going on to the next instruction keeps the quadword registers. -/
@[simp] theorem quad_advance : s.advance.quad q = s.quad q := rfl

/-- A pattern in a quadword register keeps the core registers. -/
@[simp] theorem core_writeQuad : (s.writeQuad q x).core = s.core := rfl

/-- A pattern in a quadword register keeps the flags. -/
@[simp] theorem flags_writeQuad : (s.writeQuad q x).flags = s.flags := rfl

/-- A pattern in a quadword register keeps the memory. -/
@[simp] theorem memory_writeQuad : (s.writeQuad q x).memory = s.memory := rfl

/-- Writing one of the registers that exist changes that one only. -/
theorem quad_writeQuad (hp : p.number < 16) (hq : q.number < 16) :
    (s.writeQuad q x).quad p = if p = q then x else s.quad p := by
  simp only [quad, writeQuad, double_writeDouble, QRegister.lower_ne_upper,
    QRegister.lower_ne_upper.symm, QRegister.lower_inj hp hq, QRegister.upper_inj hp hq, if_false]
  split
  · exact (BitVec.extractLsb'_append_extractLsb'_eq_extractLsb' rfl).trans
      BitVec.extractLsb'_eq_self
  · rfl

end State

end Machine

open Machine

/-- The result of an operation on three registers. -/
def QuadOp.apply (v : VectorUnit) (op : QuadOp) (x y : Quadword) : Quadword :=
  match op with
  | bitAnd => x &&& y | bitOr => x ||| y | bitOrNot => x ||| ~~~y | bitXor => x ^^^ y
  | op => v.quad op x y

/-- The result of an operation on two registers; exchanging lanes writes both registers and has no
result of this kind. -/
def QuadUnaryOp.result? (v : VectorUnit) (op : QuadUnaryOp) (x : Quadword) : Option Quadword :=
  match op with
  | bitNot => some (~~~x)
  | zip => none
  | op => some (v.unary op x)

namespace VectorInstruction

/-- The register that an instruction writes, with the result. Operations on integer lanes,
duplications and look-ups are of a kind that this machine does not have. -/
def result? (v : VectorUnit) (b : Bank) : VectorInstruction → Option (QRegister × Quadword)
  | quad op qd qn qm => some (qd, op.apply v (b qn) (b qm))
  | unary op qd qm => (op.result? v (b qm)).map (qd, ·)
  | _ => none

/-- The registers behind instructions one after another. -/
def after (v : VectorUnit) (is : List VectorInstruction) (b : Bank) : Option Bank :=
  is.foldlM (fun b i ↦ (i.result? v b).map fun r ↦ Function.update b r.1 r.2) b

/-- The state behind an instruction. -/
def execute (v : VectorUnit) (s : State) (i : VectorInstruction) : Option State :=
  (i.result? v s.quad).map fun r ↦ (s.writeQuad r.1 r.2).advance

/-- The quadword registers that an instruction names. -/
def quads : VectorInstruction → List QRegister
  | lanes _ _ qd qn qm | quad _ qd qn qm => [qd, qn, qm]
  | unary _ qd qm => [qd, qm]
  | duplicate _ qd _ _ => [qd]
  | table .. => []

variable {v : VectorUnit} {b d : Bank} {i : VectorInstruction} {is js : List VectorInstruction}

/-- No instructions change nothing. -/
@[simp] theorem after_nil : after v [] b = some b := rfl

/-- The first instruction sets its register, and the others follow on what that leaves. -/
@[simp] theorem after_cons :
    after v (i :: is) b =
      (i.result? v b).bind fun r ↦ after v is (Function.update b r.1 r.2) := by
  simp only [after, List.foldlM_cons, Option.bind_eq_bind, Option.bind_map]
  rfl

/-- Code in two parts. -/
theorem after_append : after v (is ++ js) b = (after v is b).bind (after v js) :=
  List.foldlM_append

/-- An instruction with a result is spelled in one way only. -/
theorem plain_eq_self {r : QRegister × Quadword} (known : i.result? v b = some r) :
    i.plain = i := by
  cases i with
  | lanes | duplicate | table => cases known
  | quad | unary => rfl

/-- The result depends on registers that exist, if the instruction names no others. -/
theorem result?_congr (named : ∀ q ∈ i.quads, q.number < 16)
    (same : ∀ q, q.number < 16 → b q = d q) : i.result? v b = i.result? v d := by
  cases i with
  | lanes | duplicate | table => rfl
  | quad op qd qn qm =>
    have left : b qn = d qn := same qn (named qn (by simp [quads]))
    have right : b qm = d qm := same qm (named qm (by simp [quads]))
    rw [result?, result?, left, right]
  | unary op qd qm =>
    have operand : b qm = d qm := same qm (named qm (by simp [quads]))
    rw [result?, result?, operand]

/-- The register that is written is named. -/
theorem mem_quads_of_result? {r : QRegister × Quadword} (known : i.result? v b = some r) :
    r.1 ∈ i.quads := by
  cases i with
  | lanes | duplicate | table => cases known
  | quad op qd qn qm =>
    cases known
    simp [quads]
  | unary op qd qm =>
    obtain ⟨x, -, rfl⟩ := Option.map_eq_some_iff.mp known
    simp [quads]

/-- An instruction with a result has a word under `AL`, if its registers exist. -/
theorem exists_encode {c : Condition} (known : ∃ r, i.result? v b = some r) :
    (∃ w, i.encode c = .ok w) ↔ c = .al ∧ ∀ q ∈ i.quads, q.number < 16 := by
  obtain ⟨r, known⟩ := known
  cases i with
  | lanes | duplicate | table => cases known
  | quad op qd qn qm =>
    simp only [quads, List.forall_mem_cons, ← QRegister.exists_split]
    constructor
    · rintro ⟨w, h⟩
      simp only [encode, Encoding.vectorThree, requireAlways, bind_eq_ok] at h
      obtain ⟨⟨⟩, always, d, hd, n, hn, m, hm, -⟩ := h
      exact ⟨require_eq_ok.mp always, ⟨d, hd⟩, ⟨n, hn⟩, ⟨m, hm⟩, by simp⟩
    · rintro ⟨rfl, ⟨d, hd⟩, ⟨n, hn⟩, ⟨m, hm⟩, -⟩
      simp only [encode, Encoding.vectorThree, hd, hn, hm]
      exact ⟨_, rfl⟩
  | unary op qd qm =>
    simp only [quads, List.forall_mem_cons, ← QRegister.exists_split]
    constructor
    · rintro ⟨w, h⟩
      simp only [encode, Encoding.vectorTwo, requireAlways, bind_eq_ok] at h
      obtain ⟨⟨⟩, always, d, hd, m, hm, -⟩ := h
      exact ⟨require_eq_ok.mp always, ⟨d, hd⟩, ⟨m, hm⟩, by simp⟩
    · rintro ⟨rfl, ⟨d, hd⟩, ⟨m, hm⟩, -⟩
      simp only [encode, Encoding.vectorTwo, hd, hm]
      exact ⟨_, rfl⟩

/-- Code with results at all its places has words under `AL`, if the registers exist. -/
theorem exists_words {c : Condition} (known : after v is b = some d) :
    (∃ ws, (Sequence.issueVector c is).words = .ok ws) ↔
      ∀ i ∈ is, c = .al ∧ ∀ q ∈ i.quads, q.number < 16 := by
  induction is generalizing b with
  | nil => simp [Sequence.issueVector]
  | cons i is ih =>
    obtain ⟨r, result, known⟩ := Option.bind_eq_some_iff.mp (after_cons ▸ known)
    rw [List.forall_mem_cons, ← ih known, ← exists_encode ⟨r, result⟩]
    constructor
    · rintro ⟨_, spelled⟩
      obtain ⟨w, vs, encoded, others, -⟩ := Sequence.words_issue_cons.mp spelled
      exact ⟨⟨w, encoded⟩, vs, others⟩
    · rintro ⟨⟨w, encoded⟩, vs, others⟩
      exact ⟨w :: vs, Sequence.words_issue_cons.mpr ⟨w, vs, encoded, others, rfl⟩⟩

end VectorInstruction

/-- The state after an instruction whose condition holds, vectors included. -/
def Instruction.carryOut (u : FloatUnit) (v : VectorUnit) (s : State) : Instruction → Option State
  | vector i => i.execute v s
  | i => i.perform u s

/-- The state after a predicated instruction, vectors included. -/
def Predicated.carryOut (u : FloatUnit) (v : VectorUnit) (s : State) (p : Predicated) :
    Option State :=
  if p.condition.holds s.flags then p.instruction.carryOut u v s else some s.advance

namespace Machine

/-- One instruction of any family, vectors included. -/
def turn (u : FloatUnit) (v : VectorUnit) (m : CodeMemory) (s : State) : Option State := do
  let w ← m (s.core .pc)
  let p ← decodeAny w
  p.carryOut u v s

/-- Several instructions one after another. -/
def turns (u : FloatUnit) (v : VectorUnit) (m : CodeMemory) (n : Nat) (s : State) : Option State :=
  (·.bind (turn u v m))^[n] (some s)

variable {u : FloatUnit} {v : VectorUnit} {m : CodeMemory} {s t r : State} {w : Word}
  {ws vs : List Word}

/-- Running the words one after another, wherever they lie, leads from `s` to `t`, and `t` is about
to run what follows them; the words may be vector instructions. -/
structure Finishes (u : FloatUnit) (v : VectorUnit) (ws : List Word) (s t : State) : Prop where
  turns_eq : ∀ m : CodeMemory, m.Holds (s.core .pc) ws → turns u v m ws.length s = some t
  pc_eq : t.core .pc = s.core .pc + BitVec.ofNat 32 (4 * ws.length)

namespace Finishes

/-- No words do nothing. -/
theorem nil : Finishes u v [] s s := ⟨fun _ _ ↦ rfl, by simp⟩

/-- A word whose instruction does not jump, in front of code. -/
theorem cons {p : Predicated} (decoded : decodeAny w = some p)
    (carried : p.carryOut u v s = some t) (next : t.core .pc = s.core .pc + 4)
    (rest : Finishes u v ws t r) : Finishes u v (w :: ws) s r := by
  constructor
  · intro m held
    have one : turn u v m s = some t := by
      simp only [turn, held.head, decoded, Option.bind_eq_bind, Option.bind_some, carried]
    have onward : m.Holds (t.core .pc) ws := next ▸ held.drop 1
    rw [turns, List.length_cons, Function.iterate_succ_apply, Option.bind_some, one]
    exact rest.turns_eq m onward
  · rw [rest.pc_eq, next, List.length_cons, Nat.mul_succ, Nat.add_comm, BitVec.ofNat_add,
      BitVec.add_assoc]
    rfl

end Finishes

/-- The quadword registers that exist hold what they hold in a bank, and nothing else but the
program counter has changed. -/
structure State.Leaves (s t : State) (b : Bank) : Prop where
  quad : ∀ q : QRegister, q.number < 16 → t.quad q = b q
  core : ∀ r, r ≠ .pc → t.core r = s.core r
  flags : t.flags = s.flags
  memory : t.memory = s.memory

/-- Vector code that has words does to the registers what its instructions do one after another,
wherever it lies and whatever the registers hold. -/
theorem finishes_issueVector {is : List VectorInstruction} {b d : Bank}
    (spelled : (Sequence.issueVector .al is).words = .ok ws)
    (known : VectorInstruction.after v is b = some d)
    (held : ∀ q : QRegister, q.number < 16 → s.quad q = b q) :
    ∃ t, Finishes u v ws s t ∧ s.Leaves t d := by
  induction is generalizing s b ws with
  | nil =>
    cases known
    rw [Sequence.words_issue_nil.mp spelled]
    exact ⟨s, .nil, held, fun _ _ ↦ rfl, rfl, rfl⟩
  | cons i is ih =>
    obtain ⟨w, vs, encoded, others, rfl⟩ := Sequence.words_issue_cons.mp spelled
    rw [VectorInstruction.after_cons] at known
    obtain ⟨r, result, known⟩ := Option.bind_eq_some_iff.mp known
    obtain ⟨-, named⟩ := (VectorInstruction.exists_encode ⟨r, result⟩).mp ⟨w, encoded⟩
    have exists_written := named r.1 (VectorInstruction.mem_quads_of_result? result)
    have decoded := Decode.decodeAny_vector encoded
    rw [VectorInstruction.plain_eq_self result] at decoded
    -- the bank may differ from the registers at numbers that name none, and no operand is there
    have computed : i.result? v s.quad = some r :=
      (VectorInstruction.result?_congr named held).trans result
    let next := (s.writeQuad r.1 r.2).advance
    have carried : Predicated.carryOut u v s ⟨.al, .vector i⟩ = some next := by
      simp [Predicated.carryOut, Instruction.carryOut, VectorInstruction.execute, computed, next]
    have held' (q : QRegister) (hq : q.number < 16) :
        next.quad q = Function.update b r.1 r.2 q := by
      rw [State.quad_advance, State.quad_writeQuad hq exists_written, Function.update_apply]
      split
      · rfl
      · exact held q hq
    obtain ⟨t, finishes, leaves⟩ := ih others known held'
    refine ⟨t, finishes.cons decoded carried (by simp [next]), leaves.quad, ?_, leaves.flags,
      leaves.memory⟩
    intro q other
    rw [leaves.core q other, State.core_advance, if_neg other, State.core_writeQuad]

end Machine

end A32Assembler
