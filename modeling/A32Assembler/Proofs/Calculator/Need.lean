import A32Assembler.Calculator.Compiler

/-!
# Temporaries that an expression needs

How many temporaries an expression needs is a matter of its shape. Its code breaks off exactly if
that is more than there are left, and otherwise leaves as many in use as it found.
-/

namespace A32Assembler.Calculator

/-- The number of temporaries that an expression needs. While a right operand is computed, it takes
one more, and a remainder takes two: for the right operand and for the quotient. -/
def Expr.need : Expr → Nat
  | .number _ => 0
  | .binary left op right =>
    max left.need (max (1 + right.need) (if op = .remainder then 2 else 1))

/-- With `k` temporaries in use, an emission is exhausted exactly if it needs more than are left; if
not, as many are in use where it ends. -/
structure Emission.Fits (e : Emission) (k need : Nat) : Prop where
  exhausted_eq : e.exhausted = decide (7 < k + need)
  inUse_eq : k + need ≤ 7 → e.inUse = k

section Need

variable {e : Emission} {k n m : Nat} {calls : List Call} {result right : Register}

namespace Emission.Fits

/-- Code that takes no temporary. -/
theorem run (few : k ≤ 7) : (Emission.run calls k).Fits k 0 :=
  ⟨(decide_eq_false (by omega)).symm, fun _ ↦ rfl⟩

/-- One emission and then another. -/
theorem andThen {next : Nat → Emission} (first : e.Fits k n) (second : (next k).Fits k m) :
    (e.andThen next).Fits k (max n m) := by
  unfold Emission.andThen
  by_cases fits : k + n ≤ 7
  · have completed : e.exhausted = false := by
      rw [first.exhausted_eq, decide_eq_false_iff_not]
      omega
    rw [if_neg (by simp [completed]), first.inUse_eq fits]
    refine ⟨second.exhausted_eq.trans (decide_eq_decide.mpr ?_), fun both ↦ second.inUse_eq ?_⟩
    · omega
    · omega
  · have exhausted : e.exhausted = true := by
      rw [first.exhausted_eq, decide_eq_true_iff]
      omega
    rw [if_pos exhausted]
    exact ⟨exhausted.trans (decide_eq_true (by omega)).symm, fun both ↦ by omega⟩

/-- An emission for which one more temporary is taken. -/
theorem taken {next : Register → Nat → Emission}
    (h : ∀ r, temporaries[k]? = some r → (next r (k + 1)).Fits (k + 1) n) :
    (Emission.take k fun r j ↦ (next r j).andThen .release).Fits k (1 + n) := by
  have count : temporaries.length = 7 := rfl
  unfold Emission.take
  cases found : temporaries[k]? with
  | none =>
    have all := List.getElem?_eq_none_iff.mp found
    exact ⟨(decide_eq_true (by omega)).symm, fun fits ↦ by omega⟩
  | some r =>
    obtain ⟨exhausted_eq, inUse_eq⟩ := h r found
    have sum : k + 1 + n = k + (1 + n) := by omega
    rw [sum] at exhausted_eq inUse_eq
    dsimp only
    unfold Emission.andThen
    split
    · next exhausted =>
      refine ⟨exhausted_eq, fun enough ↦ ?_⟩
      rw [exhausted_eq, decide_eq_true_iff] at exhausted
      omega
    · next completed =>
      have enough : ¬ 7 < k + (1 + n) := by rwa [exhausted_eq, decide_eq_true_iff] at completed
      refine ⟨(decide_eq_false enough).symm, fun _ ↦ ?_⟩
      rw [inUse_eq (by omega)]
      rfl

end Emission.Fits

/-- Combining two operands takes one temporary for a remainder, and otherwise none. -/
theorem combine_fits (op : Operator) (few : k ≤ 7) :
    (combine op result right k).Fits k (if op = .remainder then 1 else 0) := by
  cases op with
  | remainder =>
    refine .taken fun r found ↦ .run ?_
    exact (List.getElem?_eq_some_iff.mp found).1
  | add | subtract | multiply | divide => exact .run few

/-- The code of an expression is exhausted exactly if the expression needs more temporaries than are
left. -/
theorem emitExpr_fits (e : Expr) (few : k ≤ 7) : (emitExpr result e k).Fits k e.need := by
  induction e generalizing result k with
  | number value => exact .run few
  | binary left op right ihl ihr =>
    have fits : (emitExpr result (.binary left op right) k).Fits k
        (max left.need (1 + max right.need (if op = .remainder then 1 else 0))) := by
      refine (ihl few).andThen (.taken fun r found ↦ ?_)
      have more : k + 1 ≤ 7 := (List.getElem?_eq_some_iff.mp found).1
      exact (ihr more).andThen (combine_fits op more)
    have same : max left.need (1 + max right.need (if op = .remainder then 1 else 0)) =
        (Expr.binary left op right).need := by
      rw [Expr.need]
      split <;> omega
    rwa [same] at fits

end Need

end A32Assembler.Calculator
