import A32Assembler.Proofs.Calculator.Compilation
import A32Assembler.Proofs.Machine.Stack

/-!
# Compiled functions

Between saving the temporaries and restoring them, a compiled function runs the code of its
expression. Called from anywhere, it returns to its caller with the value of the expression in `R0`,
and every other register but `IP` is as it was.
-/

namespace A32Assembler.Calculator

open Machine

variable {u : FloatUnit} {m : CodeMemory} {s t : State}

/-- The saved registers are the temporaries and `R11`. -/
theorem listed_savedList : listed savedList = temporaries ++ [.ofNat 11] := by decide

/-- The return goes to the address in `LR`. -/
theorem step_ret {w : Word} (encoded : CoreInstruction.ret.encode .al = .ok w)
    (held : m (s.core .pc) = some w) : step u m s = some (s.jump false (s.core .lr)) := by
  rw [step_of_decode held (Decode.decode_branchExchange encoded)]
  simp [Predicated.execute, Instruction.execute, CoreInstruction.execute,
    State.read_of_ne (show Register.lr ≠ .pc by decide)]

/-- The words of a function: the body between the push and the pop, and the return. -/
theorem words_of_compile {features : Features} (h : features.integerDivision = false → u.Ieee)
    {e : Expr} {c : Compiler}
    (compiled : (Compiler.start features).compile e = .ok (true, c)) :
    ∃ ws, c.assembler.buffer.words = [0xe92d0ff0] ++ ws ++ [0xe8bd0ff0] ++ [0xe12fff1e] ∧
      ∀ s, ∃ t, Executes u ws s t ∧ Leaves .r0 0 (fun _ ↦ e.eval) s t := by
  have free : Free .r0 0 := ⟨by decide, by decide⟩
  simp only [Compiler.compile, bind_eq_ok, pure_eq_ok, Prod.mk.injEq, Bool.not_eq_true'] at compiled
  obtain ⟨a, applied, fits, rfl⟩ := compiled
  obtain ⟨-, ws, appends, runs⟩ := emitExpr_yields h e free fits
  refine ⟨ws, ?_, runs⟩
  have push : Appends features [.issue (.core (.pushList savedList))] [0xe92d0ff0] := .issue rfl
  have pop : Appends features [.issue (.core (.popList savedList))] [0xe8bd0ff0] := .issue rfl
  have ret : Appends features [.issue (.core .ret)] [0xe12fff1e] := .issue rfl
  have all := ((push.append appends).append (pop.append ret)) (.start (.near features)) rfl rfl
  rw [fits] at applied
  cases all.symm.trans applied
  rw [Assembler.append, CodeBuffer.words_emitAll]
  simp [Assembler.start, CodeBuffer.words_empty]

/-- Between the push and the pop of the saved registers, code may use `R0`, `IP` and the
temporaries: the pop undoes the rest. -/
theorem executes_framed {ws : List Word} {value : Word} (aligned : s.core .sp % 4 = 0)
    (room : s.memory.Accessible (s.core .sp - 32) 32)
    (runs : ∀ s, ∃ t, Executes u ws s t ∧ Leaves .r0 0 (fun _ ↦ value) s t) :
    ∃ t, Executes u ([0xe92d0ff0] ++ ws ++ [0xe8bd0ff0]) s t ∧ t.core .r0 = value ∧
      (∀ r, r ≠ .r0 → r ≠ .ip → r ≠ .pc → t.core r = s.core r) ∧
      ∀ b, ¬ Memory.Range (s.core .sp - 32) 32 b → t.memory b = s.memory b := by
  have no_sp : Register.sp ∉ listed savedList := by decide
  have no_pc : Register.pc ∉ listed savedList := by decide
  have sp_pc : Register.sp ≠ .pc := by decide
  obtain ⟨s1, pushes, saved⟩ := executes_pushList (u := u) rfl no_sp aligned room
  obtain ⟨s2, computes, computed, keeps⟩ := runs s1
  have sp2 : s2.core .sp = s.core .sp - stackSize savedList :=
    (keeps.core .sp sp_pc (by decide)).trans saved.sp
  have block : s2.memory.readBlock (s2.core .sp) (listed savedList).length =
      some ((listed savedList).map s.read) := by
    rw [sp2, keeps.memory]
    exact saved.block
  obtain ⟨s3, pops, sp, restored, others, memory⟩ := executes_popList (u := u) rfl no_sp no_pc
    (by rw [sp2]; exact sub_stackSize_mod _ aligned) block
  refine ⟨s3, (pushes.append computes).append pops, ?_, fun r other other_ip other_pc ↦ ?_,
    fun b outside ↦ ?_⟩
  · rw [others .r0 (by decide) (by decide) (by decide)]
    exact computed
  · by_cases mem : r ∈ listed savedList
    · rw [restored r mem, State.read_of_ne other_pc]
    by_cases same : r = .sp
    · rw [same, sp, sp2, BitVec.sub_add_cancel]
    · have undisturbed : r ∉ disturbed .r0 0 := by
        rw [listed_savedList, List.mem_append, not_or] at mem
        simp [disturbed, other, other_ip, mem.1]
      rw [others r mem other_pc same, keeps.core r other_pc undisturbed, saved.core r other_pc same]
  · rw [memory, keeps.memory]
    exact saved.memory b outside

/-- Called with its words anywhere in code memory and room for eight words below an aligned stack
pointer, the function compiled for an expression returns to the address in `LR`. `R0` then holds the
value of the expression; every register but `R0` and `IP`, and all memory outside that room, is as
it was. The unit only has to divide as IEEE 754 says if the processor has no divider. -/
theorem compiled_function_returns {features : Features}
    (h : features.integerDivision = false → u.Ieee) {e : Expr} {c : Compiler}
    (compiled : (Compiler.start features).compile e = .ok (true, c))
    (held : m.Holds (s.core .pc) c.assembler.buffer.words) (aligned : s.core .sp % 4 = 0)
    (room : s.memory.Accessible (s.core .sp - 32) 32) :
    ∃ t, run u m c.assembler.buffer.words.length s = some t ∧ t.core .pc = s.core .lr ∧
      t.core .r0 = e.eval ∧ (∀ r, r ≠ .r0 → r ≠ .ip → r ≠ .pc → t.core r = s.core r) ∧
      ∀ b, ¬ Memory.Range (s.core .sp - 32) 32 b → t.memory b = s.memory b := by
  obtain ⟨ws, words, runs⟩ := words_of_compile h compiled
  obtain ⟨s1, executes, value, registers, memory⟩ := executes_framed aligned room runs
  rw [words] at held ⊢
  have at_ret := held.right.head
  rw [← executes.pc_eq] at at_ret
  have returns := step_ret (u := u) rfl at_ret
  have lr : s1.core .lr = s.core .lr := registers .lr (by decide) (by decide) (by decide)
  refine ⟨s1.jump false (s1.core .lr), ?_, ?_, ?_, fun r other other_ip other_pc ↦ ?_, memory⟩
  · rw [List.length_append]
    exact run_add (executes.run_eq m held.left) (run_one.trans returns)
  · simp [State.core_jump, lr]
  · simp [State.core_jump, value, show Register.r0 ≠ .pc by decide]
  · simp [State.core_jump, other_pc, registers r other other_ip other_pc]

/-- The remainder of minus a hundred by seven, compiled for a processor without a divider. -/
theorem compiled_remainder_returns : ∃ c t,
    (Compiler.start ⟨false, false⟩).compile (.binary (.number (-100)) .remainder (.number 7)) =
      .ok (true, c) ∧
    run .reference (.ofWords 0x8000 c.assembler.buffer.words) c.assembler.buffer.words.length
      ⟨fun r ↦ if r = .pc then 0x8000 else if r = .sp then 0x1000 else if r = .lr then 0x400 else 5,
        ⟨false, false, false, false⟩, fun _ ↦ 0, fun _ ↦ some 0⟩ = some t ∧
    t.core .pc = 0x400 ∧ t.core .r0 = -2 ∧ t.core (.ofNat 4) = 5 := by
  have facts : ((Compiler.start ⟨false, false⟩).compile (.binary (.number (-100)) .remainder
      (.number 7))).toOption.map (fun r ↦ (r.1, r.2.assembler.buffer.words.length)) =
        some (true, 18) := by
    decide +kernel
  cases compiled : (Compiler.start ⟨false, false⟩).compile (.binary (.number (-100)) .remainder
      (.number 7)) with
  | error e =>
    rw [compiled] at facts
    cases facts
  | ok result =>
    obtain ⟨done, c⟩ := result
    rw [compiled] at facts
    obtain ⟨rfl, length⟩ := Prod.mk.inj (Option.some.inj facts)
    have held : CodeMemory.Holds (.ofWords 0x8000 c.assembler.buffer.words) 0x8000
        c.assembler.buffer.words :=
      CodeMemory.holds_ofWords (by rw [length]; decide)
    obtain ⟨t, ran, pc, value, registers, -⟩ := compiled_function_returns
      (fun _ ↦ FloatUnit.ieee_reference)
      (s := ⟨fun r ↦ if r = .pc then 0x8000 else if r = .sp then 0x1000 else
        if r = .lr then 0x400 else 5, ⟨false, false, false, false⟩, fun _ ↦ 0, fun _ ↦ some 0⟩)
      compiled held rfl (fun _ _ ↦ rfl)
    exact ⟨c, t, rfl, ran, pc, value, registers (.ofNat 4) (by decide) (by decide) (by decide)⟩

end A32Assembler.Calculator
