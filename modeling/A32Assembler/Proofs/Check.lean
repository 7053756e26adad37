import A32Assembler.Error

/-!
# Successful checks

What the success of a chain of checks says of each of them.
-/

namespace A32Assembler

variable {ε α β : Type}

/-- A chain of checks succeeds exactly when its first check does and then the rest. -/
theorem bind_eq_ok {x : Except ε α} {f : α → Except ε β} {b : β} :
    x >>= f = .ok b ↔ ∃ a, x = .ok a ∧ f a = .ok b := by
  cases x with
  | error e => simp [bind, Except.bind]
  | ok a => simp [bind, Except.bind]

/-- The end of a chain of checks succeeds with its value. -/
theorem pure_eq_ok {a b : α} : (pure a : Except ε α) = .ok b ↔ a = b := by
  simp [pure, Except.pure]

/-- A checked value can be changed exactly if there is one. -/
@[simp] theorem exists_map_eq_ok {x : Except ε α} {f : α → β} :
    (∃ b, f <$> x = .ok b) ↔ ∃ a, x = .ok a := by
  cases x with
  | error e => simp [Functor.map, Except.map]
  | ok a => simp [Functor.map, Except.map]

/-- A requirement can be met exactly if its condition holds. -/
@[simp] theorem exists_require_eq_ok {p : Prop} [Decidable p] {m : Misuse} :
    (∃ u, require p m = .ok u) ↔ p :=
  ⟨fun ⟨_, met⟩ ↦ require_eq_ok.mp met, fun h ↦ ⟨(), require_eq_ok.mpr h⟩⟩

/-- A check in a wider error type succeeds exactly when it does in its own. -/
theorem liftMisuse_eq_ok {x : Except Misuse α} {a : α} : liftMisuse x = .ok a ↔ x = .ok a := by
  cases x <;> simp [liftMisuse]

@[inherit_doc liftMisuse_eq_ok]
theorem liftRefusal_eq_ok {x : Except Refusal α} {a : α} : liftRefusal x = .ok a ↔ x = .ok a := by
  cases x <;> simp [liftRefusal]

end A32Assembler
