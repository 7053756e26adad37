import A32Assembler.Proofs.Calculator.Emission

/-!
# Compiled expressions

The code of an expression leaves its value in the register of the result, at any depth: the code of
a right operand changes its own register, `IP` and temporaries that are not in use, and so neither
the left operand nor what waits in lower temporaries.
-/

namespace A32Assembler.Calculator

open Machine Sequence

/-- A remainder is what the quotient, taken times the divisor, leaves of the dividend. -/
theorem sub_sdiv_mul (x y : Word) : x - x.sdiv y * y = x.srem y := by
  apply BitVec.eq_of_toInt_eq
  have rest : x.toInt - x.toInt.tdiv y.toInt * y.toInt = (x.srem y).toInt := by
    rw [BitVec.toInt_srem, Int.tmod_def, Int.mul_comm]
  have product : (x.sdiv y * y).toInt = (x.toInt.tdiv y.toInt * y.toInt).bmod (2 ^ 32) := by
    rw [BitVec.toInt_mul, BitVec.toInt_sdiv, Int.bmod_mul_bmod]
  rw [BitVec.toInt_sub, product, Int.sub_bmod_bmod, rest, BitVec.toInt_bmod_cancel]

section Temporaries

variable {r : Register} {k : Nat}

/-- The temporaries not in use start with the one taken next. -/
theorem drop_temporaries (found : temporaries[k]? = some r) :
    temporaries.drop k = r :: temporaries.drop (k + 1) := by
  obtain ⟨inside, rfl⟩ := List.getElem?_eq_some_iff.mp found
  exact List.drop_eq_getElem_cons inside

/-- The temporaries are below `IP`. -/
theorem number_temporary (found : temporaries[k]? = some r) : r.number < 12 := by
  have low : ∀ r ∈ temporaries, r.number < 12 := by decide
  exact low r (List.mem_of_getElem? found)

/-- A temporary that is taken is in use. -/
theorem not_mem_drop_temporaries (found : temporaries[k]? = some r) :
    r ∉ temporaries.drop (k + 1) := by
  have distinct : (temporaries.drop k).Nodup := (by decide : temporaries.Nodup).drop
  rw [drop_temporaries found] at distinct
  exact (List.nodup_cons.mp distinct).1

end Temporaries

/-- A register that code may compute its result in while `k` temporaries are in use. -/
structure Free (result : Register) (k : Nat) : Prop where
  low : result.number < 12
  unused : result ∉ temporaries.drop k

/-- The core registers that such code changes. -/
def disturbed (result : Register) (k : Nat) : List Register := result :: .ip :: temporaries.drop k

/-- The code leaves a value in `result` and disturbs nothing in use. -/
def Leaves (result : Register) (k : Nat) (value : State → Word) (s t : State) : Prop :=
  t.core result = value s ∧ s.Keeps t (disturbed result k) [⟨0⟩, ⟨1⟩]

variable {u : FloatUnit} {features : Features} {result right : Register} {k : Nat}

namespace Free

/-- The result is not the program counter. -/
theorem ne_pc (free : Free result k) : result ≠ .pc :=
  Register.ne_pc (by have := free.low; bv_omega)

/-- It lies below the program counter. -/
theorem lt_pc (free : Free result k) : result.number < 15 := by
  have := free.low
  bv_omega

/-- It is not the scratch register either. -/
theorem ne_ip (free : Free result k) : result ≠ .ip := by
  rintro rfl
  exact absurd free.low (by decide)

/-- The result and every temporary not in use are two registers. -/
theorem ne_temporary (free : Free result k) {q : Register} (found : temporaries[k]? = some q) :
    result ≠ q := by
  rintro rfl
  exact free.unused (by rw [drop_temporaries found]; exact List.mem_cons_self)

/-- A register stays free when more temporaries are taken. -/
theorem succ (free : Free result k) : Free result (k + 1) :=
  ⟨free.low, fun mem ↦ free.unused (List.mem_of_mem_drop (i := 1) (by rwa [List.drop_drop]))⟩

end Free

/-- The temporary taken next is free once it is taken. -/
theorem free_temporary {q : Register} (found : temporaries[k]? = some q) : Free q (k + 1) :=
  ⟨number_temporary found, not_mem_drop_temporaries found⟩

/-- What is free is not disturbed by code for the temporary taken next. -/
theorem Free.not_mem_disturbed {q : Register} (free : Free result k)
    (found : temporaries[k]? = some q) : result ∉ disturbed q (k + 1) := by
  simp only [disturbed, List.mem_cons, not_or]
  exact ⟨free.ne_temporary found, free.ne_ip, free.succ.unused⟩

/-- Code for the temporary taken next disturbs nothing that code for `result` leaves alone. -/
theorem disturbed_subset {q : Register} (found : temporaries[k]? = some q) :
    disturbed q (k + 1) ⊆ disturbed result k := by
  intro r mem
  rw [disturbed, drop_temporaries found]
  simp only [disturbed, List.mem_cons] at mem ⊢
  tauto

/-- With more temporaries in use, less is disturbed. -/
theorem disturbed_succ : disturbed result (k + 1) ⊆ disturbed result k := by
  intro r mem
  simp only [disturbed, List.mem_cons] at mem ⊢
  rw [← List.drop_drop] at mem
  exact mem.imp_right (Or.imp_right List.mem_of_mem_drop)

private theorem leaves_put {s : State} {x y : Word} (free : Free result k) (same : x = y) :
    (s.put result x).core result = y ∧
      s.Keeps (s.put result x) (disturbed result k) [⟨0⟩, ⟨1⟩] := by
  refine ⟨?_, (State.keeps_put free.ne_pc).mono (by simp [disturbed]) (by simp)⟩
  rw [State.core_put free.ne_pc, if_neg free.ne_pc, if_pos rfl, same]

private theorem arithmetic_leaves (op : ArithmeticOp) (free : Free result k) (free' : Free right k)
    {value : State → Word}
    (computes : ∀ s : State, (compute op.opcode s.flags (s.core result)
      (s.core right, s.flags.c)).value = value s) :
    (issueCore .al [.arithmetic op false result result (.register right)]).HasEffect u
      (Leaves result k value) := by
  have right_pc := free'.ne_pc
  obtain ⟨m, field⟩ := Register.exists_code (r := right) (by have := free'.low; bv_omega)
  refine HasEffect.mono (.arithmetic op free.lt_pc free.lt_pc
    ⟨_, by rw [Operand.encoding, field]; rfl⟩ rfl) ?_
  rintro s _ rfl
  rw [Condition.holds_al, if_pos rfl, Operand.evaluate, State.read_of_ne right_pc]
  exact leaves_put free (computes s)

private theorem divide_leaves (h : features.integerDivision = false → u.Ieee) {left : Register}
    (free : Free result k) (free_left : Free left k) (free_right : Free right k) :
    ((Request.divide true result left right ⟨0⟩ ⟨1⟩).sequence features .al).HasEffect u
      (Leaves result k fun s ↦ (s.core left).sdiv (s.core right)) := by
  refine HasEffect.mono (divide_effect h true free.lt_pc free_left.lt_pc free_right.lt_pc
    free.ne_ip free_left.ne_ip free_right.ne_ip (by decide) (by decide) (by decide)) ?_
  rintro s t ⟨value, keeps⟩
  refine ⟨?_, keeps.mono (by simp [disturbed]) (List.Subset.refl _)⟩
  rw [value, Word.quotient_true]

/-- Combining two operands leaves the result of the operation. -/
theorem combine_yields (h : features.integerDivision = false → u.Ieee) (op : Operator)
    (free : Free result k) (free_right : Free right k) :
    (combine op result right k).Yields u features k
      (Leaves result k fun s ↦ op.eval (s.core result) (s.core right)) := by
  cases op with
  | add =>
    exact .issue (arithmetic_leaves .add free free_right fun s ↦ by simp [ArithmeticOp.opcode]; rfl)
  | subtract =>
    exact .issue (arithmetic_leaves .sub free free_right fun s ↦ by simp [ArithmeticOp.opcode]; rfl)
  | multiply =>
    refine .issue (HasEffect.mono (.multiply free.lt_pc free.lt_pc free_right.lt_pc) ?_)
    rintro s _ rfl
    rw [Condition.holds_al, if_pos rfl]
    exact leaves_put free rfl
  | divide => exact .expand (divide_leaves h free free free_right)
  | remainder =>
    refine .take fun q found ↦ ?_
    have free_q := free_temporary found
    have divided := Emission.Yields.expand (k := k + 1)
      (divide_leaves h free_q free.succ free_right.succ)
    have subtracted : (Sequence.issue .al [.core (.multiplyAccumulate true result q right
        result)]).HasEffect u fun s t ↦
          t = s.put result (s.core result - s.core q * s.core right) := by
      refine HasEffect.mono
        (.multiplySubtract free.lt_pc free_q.lt_pc free_right.lt_pc free.lt_pc) ?_
      rintro s _ rfl
      rw [Condition.holds_al, if_pos rfl]
    refine .release (divided.run_append (.issue subtracted) ?_)
    rintro s t _ ⟨quotient, keeps⟩ rfl
    have dividend := keeps.core result free.ne_pc (free.not_mem_disturbed found)
    have divisor := keeps.core right free_right.ne_pc (free_right.not_mem_disturbed found)
    have value : t.core result - t.core q * t.core right =
        (s.core result).srem (s.core right) := by
      rw [dividend, divisor, quotient, sub_sdiv_mul]
    obtain ⟨left, keeps'⟩ := leaves_put (s := t) free value
    exact ⟨left, (keeps.mono (disturbed_subset found) (List.Subset.refl _)).trans keeps'⟩

/-- Unless the temporaries run out, the code of an expression leaves its value in the register of
the result. -/
theorem emitExpr_yields (h : features.integerDivision = false → u.Ieee) (e : Expr)
    (free : Free result k) :
    (emitExpr result e k).Yields u features k (Leaves result k fun _ ↦ e.eval) := by
  induction e generalizing result k with
  | number value =>
    refine .expand (HasEffect.mono (constant_effect free.lt_pc) ?_)
    intro s t loads
    obtain ⟨loaded, -, keeps⟩ := loads (Condition.holds_al _)
    exact ⟨loaded, keeps.mono (by simp [disturbed]) (by simp)⟩
  | binary left op right ihl ihr =>
    have rest : (Emission.take k fun q inUse ↦ ((emitExpr q right inUse).andThen
        (combine op result q)).andThen .release).Yields u features k
          (Leaves result k fun s ↦ op.eval (s.core result) right.eval) := by
      refine .take fun q found ↦ .release ?_
      have free_q := free_temporary found
      refine (ihr free_q).andThen (combine_yields h op free.succ free_q) ?_
      rintro s t r ⟨value, keeps⟩ ⟨combined, keeps'⟩
      -- The right operand has left the left one in its register.
      have left_value := keeps.core result free.ne_pc (free.not_mem_disturbed found)
      refine ⟨by simp only [combined, left_value, value], ?_⟩
      exact (keeps.mono (disturbed_subset found) (List.Subset.refl _)).trans
        (keeps'.mono disturbed_succ (List.Subset.refl _))
    refine (ihl free).andThen rest ?_
    rintro s t r ⟨value, keeps⟩ ⟨combined, keeps'⟩
    exact ⟨by simp only [combined, value, Expr.eval], keeps.trans keeps'⟩

end A32Assembler.Calculator
