import A32Assembler.Proofs.Machine.Vector
import A32Assembler.Proofs.Sequence.Expansion

/-!
# What the refinement sequences compute

Estimates, steps and products may be any functions of whole registers, those that work lane by lane
among them. Whatever they are, a refinement leaves in its destination the term that it stands for,
of the values that its operands had at the start, for every choice of registers that is accepted:
registers that are overwritten on the way are read for the last time before.
-/

namespace A32Assembler

open Machine

namespace Machine.VectorUnit

variable (v : VectorUnit)

/-- One step from `r` toward the reciprocal of `x`. -/
def refineReciprocal (x r : Quadword) : Quadword := v.quad .mul r (v.quad .recipStep x r)

/-- One step from `r` toward the reciprocal of the square root of `x`. -/
def refineRootReciprocal (x r : Quadword) : Quadword :=
  v.quad .mul r (v.quad .rsqrtStep x (v.quad .mul r r))

/-- Two steps from the estimate of the reciprocal of `x`. -/
def reciprocal (x : Quadword) : Quadword :=
  (v.refineReciprocal x)^[2] (v.unary .recipEstimate x)

/-- Two steps from the estimate of the reciprocal of the square root of `x`. -/
def rootReciprocal (x : Quadword) : Quadword :=
  (v.refineRootReciprocal x)^[2] (v.unary .rsqrtEstimate x)

end Machine.VectorUnit

/-- A request that refines an estimate. -/
inductive Refinement
  /-- `qd = 1 / qm`. -/
  | reciprocal (qd qm : QRegister)
  /-- `qd = 1 / sqrt qm`. -/
  | rootReciprocal (qd qm : QRegister)
  /-- `qd = sqrt qm`. -/
  | root (qd qm temp : QRegister)
  /-- `qd = qn / qm`. -/
  | quotient (qd qn qm : QRegister)

namespace Refinement

/-- The refinement as a request to the assembler. -/
def request : Refinement → Request
  | reciprocal qd qm => .reciprocal qd qm
  | rootReciprocal qd qm => .rootReciprocal qd qm
  | root qd qm temp => .root qd qm temp
  | quotient qd qn qm => .quotient qd qn qm

/-- The register for the result. -/
def destination : Refinement → QRegister
  | reciprocal qd _ | rootReciprocal qd _ | root qd _ _ | quotient qd _ _ => qd

/-- The registers that lose their values besides. -/
def spoiled : Refinement → List QRegister
  | root _ _ temp => [.scratch, temp]
  | _ => [.scratch]

/-- The registers that the caller names. -/
def registers : Refinement → List QRegister
  | reciprocal qd qm | rootReciprocal qd qm => [qd, qm]
  | root qd qm temp => [qd, qm, temp]
  | quotient qd qn qm => [qd, qn, qm]

/-- The registers do not get in each other's way. The destination of a root may be its operand, its
temporary may be, too, and a register can be divided by itself. -/
def Apart : Refinement → Prop
  | reciprocal qd qm | rootReciprocal qd qm => qm ≠ .scratch ∧ qd ≠ .scratch ∧ qd ≠ qm
  | root qd qm temp => temp ≠ qd ∧ temp ≠ .scratch ∧ qm ≠ .scratch ∧ qd ≠ .scratch
  | quotient qd qn qm => qd ≠ qn ∧ qn ≠ .scratch ∧ qm ≠ .scratch ∧ qd ≠ .scratch ∧ qd ≠ qm

/-- The term that a refinement stands for, of the values in the registers. -/
def term (v : VectorUnit) (b : Bank) : Refinement → Quadword
  | reciprocal _ qm => v.reciprocal (b qm)
  | rootReciprocal _ qm => v.rootReciprocal (b qm)
  | root _ qm _ => v.reciprocal (v.rootReciprocal (b qm))
  | quotient _ qn qm => v.quad .mul (b qn) (v.reciprocal (b qm))

/-- The instructions of a reciprocal. -/
def reciprocalCode (qd qm : QRegister) : List VectorInstruction :=
  .unary .recipEstimate qd qm ::
    Sequence.reciprocalStep qd qm ++ Sequence.reciprocalStep qd qm

/-- The instructions of the reciprocal of a square root. -/
def rootReciprocalCode (qd qm : QRegister) : List VectorInstruction :=
  .unary .rsqrtEstimate qd qm ::
    Sequence.rootReciprocalStep qd qm ++ Sequence.rootReciprocalStep qd qm

/-- The instructions of a refinement, behind the checks. -/
def code : Refinement → List VectorInstruction
  | reciprocal qd qm => reciprocalCode qd qm
  | rootReciprocal qd qm => rootReciprocalCode qd qm
  | root qd qm temp =>
    .move temp qm :: rootReciprocalCode qd temp ++ .move temp qd :: reciprocalCode qd temp
  | quotient qd qn qm => reciprocalCode qd qm ++ [.quad .mul qd qn qd]

variable {c : Condition} {features : Features} {ws : List Word} {r : Refinement}

open Sequence in
/-- A refinement whose registers do not get in each other's way passes its checks. -/
theorem sequence_of_apart (apart : r.Apart) :
    r.request.sequence features c = issueVector c r.code := by
  cases r with
  | reciprocal qd qm | rootReciprocal qd qm =>
    obtain ⟨operand, destination, distinct⟩ := apart
    exact (if_pos ⟨operand, destination⟩).trans (if_pos distinct)
  | root qd qm temp =>
    obtain ⟨distinct, temporary, operand, destination⟩ := apart
    simp [request, Request.sequence, Sequence.root, Sequence.rootReciprocal, Sequence.reciprocal,
      guarded, issueVector, issue, code, rootReciprocalCode, reciprocalCode, distinct,
      distinct.symm, temporary, operand, destination]
  | quotient qd qn qm =>
    obtain ⟨distinct, dividend, operand, destination, overlap⟩ := apart
    simp [request, Request.sequence, Sequence.quotient, Sequence.reciprocal, guarded, issueVector,
      issue, code, reciprocalCode, distinct, dividend, operand, destination, overlap]

open Sequence in
/-- Registers that get in each other's way are refused. -/
theorem apart_of_words (spelled : (r.request.sequence features c).words = .ok ws) : r.Apart := by
  cases r with
  | reciprocal qd qm | rootReciprocal qd qm =>
    obtain ⟨⟨operand, destination⟩, spelled⟩ := words_guarded.mp spelled
    obtain ⟨distinct, -⟩ := words_guarded.mp spelled
    exact ⟨operand, destination, distinct⟩
  | root qd qm temp =>
    obtain ⟨⟨distinct, temporary⟩, spelled⟩ := words_guarded.mp spelled
    obtain ⟨operand, spelled⟩ := words_guarded.mp spelled
    obtain ⟨_, _, -, last, -⟩ := words_append.mp spelled
    obtain ⟨⟨-, destination⟩, -⟩ := words_guarded.mp last
    exact ⟨distinct, temporary, operand, destination⟩
  | quotient qd qn qm =>
    obtain ⟨distinct, spelled⟩ := words_guarded.mp spelled
    obtain ⟨dividend, spelled⟩ := words_guarded.mp spelled
    obtain ⟨_, _, first, -, -⟩ := words_append.mp spelled
    obtain ⟨⟨operand, destination⟩, first⟩ := words_guarded.mp first
    obtain ⟨overlap, -⟩ := words_guarded.mp first
    exact ⟨distinct, dividend, operand, destination, overlap⟩

/-- The registers behind some code: one holds a result, and all others but some that are spoiled
keep their values. -/
def Yields (v : VectorUnit) (is : List VectorInstruction) (b : Bank) (qd : QRegister) (x : Quadword)
    (spoiled : List QRegister) : Prop :=
  ∃ d, VectorInstruction.after v is b = some d ∧ d qd = x ∧
    ∀ q, q ≠ qd → q ∉ spoiled → d q = b q

variable {v : VectorUnit} {b d : Bank} {is js : List VectorInstruction} {qd qe qm qn : QRegister}
  {x y : Quadword} {spoiled : List QRegister}

/-- One instruction. -/
theorem Yields.single {i : VectorInstruction} (result : i.result? v b = some (qd, x)) :
    Yields v [i] b qd x spoiled := by
  refine ⟨Function.update b qd x, ?_, Function.update_self .., ?_⟩
  · rw [VectorInstruction.after_cons, result]
    rfl
  · intro q other _
    exact Function.update_of_ne other ..

/-- Code in two parts, the first of which leaves its result where the second may write. -/
theorem Yields.append (first : Yields v is b qe y spoiled) (inside : qe = qd ∨ qe ∈ spoiled)
    (second : ∀ d : Bank, d qe = y → (∀ q, q ≠ qe → q ∉ spoiled → d q = b q) →
      Yields v js d qd x spoiled) : Yields v (is ++ js) b qd x spoiled := by
  obtain ⟨d, ran, result, kept⟩ := first
  obtain ⟨e, ran', result', kept'⟩ := second d result kept
  refine ⟨e, ?_, result', ?_⟩
  · rw [VectorInstruction.after_append, ran, Option.bind_some, ran']
  · intro q other outside
    have other' : q ≠ qe := by
      rintro rfl
      exact inside.elim other outside
    rw [kept' q other outside, kept q other' outside]

/-- An instruction in front of code that may overwrite its result. -/
theorem Yields.cons {i : VectorInstruction} (result : i.result? v b = some (qe, y))
    (inside : qe = qd ∨ qe ∈ spoiled)
    (rest : ∀ d : Bank, d qe = y → (∀ q, q ≠ qe → q ∉ spoiled → d q = b q) →
      Yields v js d qd x spoiled) : Yields v (i :: js) b qd x spoiled :=
  (Yields.single result).append inside rest

/-- More may be spoiled. -/
theorem Yields.mono {more : List QRegister} (h : Yields v is b qd x spoiled)
    (sub : spoiled ⊆ more) : Yields v is b qd x more := by
  obtain ⟨d, ran, result, kept⟩ := h
  exact ⟨d, ran, result, fun q other outside ↦ kept q other fun mem ↦ outside (sub mem)⟩

/-- A step toward a reciprocal reads its destination before it writes it. -/
theorem yields_reciprocalStep (destination : qd ≠ .scratch) :
    Yields v (Sequence.reciprocalStep qd qm) b qd (v.refineReciprocal (b qm) (b qd))
      [.scratch] := by
  refine .cons rfl (.inr (List.mem_singleton_self _)) ?_
  intro d correction kept
  have estimate : d qd = b qd := kept qd destination (by simpa using destination)
  apply Yields.single
  rw [VectorInstruction.result?, correction, estimate]
  rfl

/-- So does a step toward the reciprocal of a square root. -/
theorem yields_rootReciprocalStep (operand : qm ≠ .scratch) (destination : qd ≠ .scratch) :
    Yields v (Sequence.rootReciprocalStep qd qm) b qd (v.refineRootReciprocal (b qm) (b qd))
      [.scratch] := by
  refine .cons rfl (.inr (List.mem_singleton_self _)) ?_
  intro d square kept
  refine .cons rfl (.inr (List.mem_singleton_self _)) ?_
  intro e correction kept'
  have estimate : e qd = b qd := by
    rw [kept' qd destination (by simpa using destination),
      kept qd destination (by simpa using destination)]
  have radicand : d qm = b qm := kept qm operand (by simpa using operand)
  apply Yields.single
  rw [VectorInstruction.result?, correction, estimate, radicand, square]
  rfl

/-- An estimate and two steps that refine it: the operand still has its value in both. -/
theorem yields_steps {i : VectorInstruction} {f : Quadword → Quadword → Quadword}
    (operand : qm ≠ .scratch) (distinct : qd ≠ qm) (estimate : i.result? v b = some (qd, x))
    (step : ∀ b : Bank, Yields v is b qd (f (b qm) (b qd)) [.scratch]) :
    Yields v (i :: is ++ is) b qd ((f (b qm))^[2] x) [.scratch] := by
  have once : Yields v (i :: is) b qd (f (b qm) x) [.scratch] := by
    refine .cons estimate (.inl rfl) ?_
    intro d start kept
    have same : d qm = b qm := kept qm distinct.symm (by simpa using operand)
    rw [← start, ← same]
    exact step d
  refine once.append (.inl rfl) ?_
  intro d refined kept
  have same : d qm = b qm := kept qm distinct.symm (by simpa using operand)
  rw [Function.iterate_succ_apply, Function.iterate_one, ← refined, ← same]
  exact step d

/-- A reciprocal. -/
theorem yields_reciprocalCode (operand : qm ≠ .scratch) (destination : qd ≠ .scratch)
    (distinct : qd ≠ qm) :
    Yields v (reciprocalCode qd qm) b qd (v.reciprocal (b qm)) [.scratch] :=
  yields_steps operand distinct rfl fun _ ↦ yields_reciprocalStep destination

/-- The reciprocal of a square root. -/
theorem yields_rootReciprocalCode (operand : qm ≠ .scratch) (destination : qd ≠ .scratch)
    (distinct : qd ≠ qm) :
    Yields v (rootReciprocalCode qd qm) b qd (v.rootReciprocal (b qm)) [.scratch] :=
  yields_steps operand distinct rfl fun _ ↦ yields_rootReciprocalStep operand destination

/-- The result of a copy. -/
theorem result?_move : (VectorInstruction.move qd qm).result? v b = some (qd, b qm) := by
  rw [VectorInstruction.move, VectorInstruction.result?, QuadOp.apply, BitVec.or_self]

/-- A root goes through its temporary twice: for a copy of the operand, and for a copy of the
reciprocal of the result. -/
theorem yields_root {temp : QRegister} (apart : (root qd qm temp).Apart) :
    Yields v (root qd qm temp).code b qd ((root qd qm temp).term v b) [.scratch, temp] := by
  obtain ⟨distinct, temporary, operand, destination⟩ := apart
  have inside : temp ∈ [QRegister.scratch, temp] := by simp
  have less : [QRegister.scratch] ⊆ [.scratch, temp] := by simp
  have first : Yields v (.move temp qm :: rootReciprocalCode qd temp) b qd
      (v.rootReciprocal (b qm)) [.scratch, temp] := by
    refine .cons result?_move (.inr inside) fun d copied _ ↦ ?_
    rw [← copied]
    exact (yields_rootReciprocalCode temporary destination distinct.symm).mono less
  refine first.append (.inl rfl) fun d reciprocal _ ↦ ?_
  refine .cons result?_move (.inr inside) fun e copied _ ↦ ?_
  rw [term, ← reciprocal, ← copied]
  exact (yields_reciprocalCode temporary destination distinct.symm).mono less

/-- A quotient multiplies by the reciprocal, while the dividend still has its value. -/
theorem yields_quotient (apart : (quotient qd qn qm).Apart) :
    Yields v (quotient qd qn qm).code b qd ((quotient qd qn qm).term v b) [.scratch] := by
  obtain ⟨distinct, dividend, operand, destination, overlap⟩ := apart
  refine (yields_reciprocalCode operand destination overlap).append (.inl rfl) ?_
  intro d reciprocal kept
  have same : d qn = b qn := kept qn distinct.symm (by simpa using dividend)
  apply Yields.single
  rw [VectorInstruction.result?, reciprocal, same]
  rfl

/-- A refinement leaves the term that it stands for in its destination. -/
theorem yields_code (apart : r.Apart) :
    Yields v r.code b r.destination (r.term v b) r.spoiled := by
  cases r with
  | reciprocal qd qm =>
    obtain ⟨operand, destination, distinct⟩ := apart
    exact yields_reciprocalCode operand destination distinct
  | rootReciprocal qd qm =>
    obtain ⟨operand, destination, distinct⟩ := apart
    exact yields_rootReciprocalCode operand destination distinct
  | root qd qm temp => exact yields_root apart
  | quotient qd qn qm => exact yields_quotient apart

/-- A refinement has words under `AL`, if its registers exist and do not get in each other's way. -/
theorem exists_words_iff (features : Features) :
    (∃ ws, (r.request.sequence features c).words = .ok ws) ↔
      c = .al ∧ r.Apart ∧ ∀ q ∈ r.registers, q.number < 16 := by
  have spells (apart : r.Apart) :
      (∃ ws, (r.request.sequence features c).words = .ok ws) ↔
        c = .al ∧ ∀ q ∈ r.registers, q.number < 16 := by
    obtain ⟨d, known, -⟩ := yields_code (v := ⟨fun _ x _ ↦ x, fun _ x ↦ x⟩) (b := fun _ ↦ 0) apart
    have scratch : QRegister.scratch.number < 16#8 := by decide
    rw [sequence_of_apart apart, VectorInstruction.exists_words known]
    cases r <;>
      simp [code, reciprocalCode, rootReciprocalCode, Sequence.reciprocalStep,
        Sequence.rootReciprocalStep, VectorInstruction.move, VectorInstruction.quads, registers,
        scratch] <;>
      tauto
  constructor
  · rintro ⟨ws, spelled⟩
    have apart := apart_of_words spelled
    obtain ⟨always, exist⟩ := (spells apart).mp ⟨ws, spelled⟩
    exact ⟨always, apart, exist⟩
  · rintro ⟨always, apart, exist⟩
    exact (spells apart).mpr ⟨always, exist⟩

end Refinement

variable {a b : Assembler} {r : Refinement} {answer : Answer}

/-- An expansion is accepted exactly if its sequence has words, and appends them. -/
theorem apply_expand_eq_ok {r : Request} :
    a.apply (.expand r) = .ok (answer, b) ↔
      ∃ ws, (r.sequence a.settings.features a.condition).words = .ok ws ∧
        answer = .nothing ∧ b = a.append ws := by
  simp only [Assembler.apply, liftMisuse_eq_ok, bind_eq_ok, pure_eq_ok, Assembler.issueAll_eq_ok,
    Prod.mk.injEq]
  constructor
  · rintro ⟨_, ⟨ws, spelled, rfl⟩, rfl, rfl⟩
    exact ⟨ws, spelled, rfl, rfl⟩
  · rintro ⟨ws, spelled, rfl, rfl⟩
    exact ⟨_, ⟨ws, spelled, rfl⟩, rfl, rfl⟩

/-- A refinement is accepted under `AL` only, and exactly if its registers exist and do not get in
each other's way. -/
theorem refinement_accepted_iff :
    (∃ b, a.apply (.expand r.request) = .ok (.nothing, b)) ↔
      a.condition = .al ∧ r.Apart ∧ ∀ q ∈ r.registers, q.number < 16 := by
  rw [← Refinement.exists_words_iff a.settings.features]
  simp only [apply_expand_eq_ok, true_and]
  constructor
  · rintro ⟨b, ws, spelled, -⟩
    exact ⟨ws, spelled⟩
  · rintro ⟨ws, spelled⟩
    exact ⟨_, ws, spelled, rfl⟩

/-- Whatever estimates, steps and products are, and for every choice of registers that is accepted:
running what a refinement appends, wherever it lies, leaves in the destination the term that the
refinement stands for, of the values that the registers had before. Every other quadword register
but the scratch register and the temporary of a root keeps its value, and so does everything else
but the program counter. -/
theorem refinement_leaves_term (done : a.apply (.expand r.request) = .ok (answer, b)) :
    ∃ ws, b = a.append ws ∧ ∀ (u : FloatUnit) (v : VectorUnit) (s : State), ∃ t,
      Finishes u v ws s t ∧ t.quad r.destination = r.term v s.quad ∧
      (∀ q : QRegister, q.number < 16 → q ≠ r.destination → q ∉ r.spoiled →
        t.quad q = s.quad q) ∧
      (∀ q, q ≠ .pc → t.core q = s.core q) ∧ t.flags = s.flags ∧ t.memory = s.memory := by
  obtain ⟨ws, spelled, -, rfl⟩ := apply_expand_eq_ok.mp done
  obtain ⟨always, apart, exist⟩ := (Refinement.exists_words_iff _).mp ⟨ws, spelled⟩
  have destination : r.destination.number < 16 :=
    exist r.destination (by cases r <;> exact List.mem_cons_self)
  rw [Refinement.sequence_of_apart apart, always] at spelled
  refine ⟨ws, rfl, fun u v s ↦ ?_⟩
  obtain ⟨d, known, result, kept⟩ := Refinement.yields_code (v := v) (b := s.quad) apart
  obtain ⟨t, finishes, leaves⟩ := finishes_issueVector (u := u) spelled known fun _ _ ↦ rfl
  refine ⟨t, finishes, (leaves.quad _ destination).trans result, ?_, leaves.core, leaves.flags,
    leaves.memory⟩
  intro q hq other outside
  exact (leaves.quad q hq).trans (kept q other outside)

/-- The square root of `Q0` in place, with `Q1` as its temporary: `Q2` is kept. -/
theorem root_of_q0_in_place : ∃ b ws,
    (Assembler.start (.near .full)).apply (.expand (.root ⟨0⟩ ⟨0⟩ ⟨1⟩)) = .ok (.nothing, b) ∧
    b = (Assembler.start (.near .full)).append ws ∧
    ∀ (u : FloatUnit) (v : VectorUnit) (s : State), ∃ t, Finishes u v ws s t ∧
      t.quad ⟨0⟩ = v.reciprocal (v.rootReciprocal (s.quad ⟨0⟩)) ∧ t.quad ⟨2⟩ = s.quad ⟨2⟩ := by
  have apart : (Refinement.root ⟨0⟩ ⟨0⟩ ⟨1⟩).Apart := by
    refine ⟨?_, ?_, ?_, ?_⟩ <;> decide
  obtain ⟨b, done⟩ := refinement_accepted_iff (a := .start (.near .full)).mpr
    ⟨rfl, apart, by decide⟩
  obtain ⟨ws, appended, runs⟩ := refinement_leaves_term done
  refine ⟨b, ws, done, appended, fun u v s ↦ ?_⟩
  obtain ⟨t, finishes, result, kept, -⟩ := runs u v s
  exact ⟨t, finishes, result, kept ⟨2⟩ (by decide) (by decide) (by decide)⟩

end A32Assembler
