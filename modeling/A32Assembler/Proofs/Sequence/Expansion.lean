import A32Assembler.Assembler
import A32Assembler.Proofs.Sequence.Effect

/-!
# Expansion of requests

A request appends the words of its sequence, and what running them does is the effect of the
sequence. If the sequence has no words, the request is a misuse.
-/

namespace A32Assembler

open Machine

namespace Sequence

variable {u : FloatUnit}

/-- An expansion appends the words of its sequence. -/
theorem apply_expand {a : Assembler} {r : Request} {ws : List Word}
    (h : (r.sequence a.settings.features a.condition).words = .ok ws) :
    a.apply (.expand r) = .ok (.nothing, a.append ws) := by
  simp only [Assembler.apply, Assembler.issueAll, h]
  rfl

/-- An expansion without words is a misuse. -/
theorem apply_expand_error {a : Assembler} {r : Request} {m : Misuse}
    (h : (r.sequence a.settings.features a.condition).words = .error m) :
    a.apply (.expand r) = .error (.misuse m) := by
  simp only [Assembler.apply, Assembler.issueAll, h]
  rfl

/-- An expansion with an effect appends words with that effect. -/
theorem HasEffect.apply_expand {a : Assembler} {r : Request} {effect : State → State → Prop}
    (h : (r.sequence a.settings.features a.condition).HasEffect u effect) :
    ∃ ws, a.apply (.expand r) = .ok (.nothing, a.append ws) ∧
      ∀ s, ∃ t, Executes u ws s t ∧ effect s t := by
  obtain ⟨ws, words, runs⟩ := h
  exact ⟨ws, Sequence.apply_expand words, runs⟩

end Sequence

/-- A request is accepted, and running the code that it appends, wherever it lies, relates every
state in which the condition in force holds to the one behind the code. -/
def Assembler.Expands (u : FloatUnit) (a : Assembler) (r : Request)
    (effect : State → State → Prop) : Prop :=
  ∃ ws, a.apply (.expand r) = .ok (.nothing, a.append ws) ∧
    ∀ s, a.condition.holds s.flags → ∃ t, Executes u ws s t ∧ effect s t

/-- The effect of a request is that of its sequence under the condition in force. -/
theorem Assembler.Expands.of_hasEffect {u : FloatUnit} {a : Assembler} {r : Request}
    {effect : State → State → Prop}
    (h : (r.sequence a.settings.features a.condition).HasEffect u fun s t ↦
      a.condition.holds s.flags → effect s t) : a.Expands u r effect := by
  obtain ⟨ws, applied, runs⟩ := Sequence.HasEffect.apply_expand h
  refine ⟨ws, applied, ?_⟩
  intro s holds
  obtain ⟨t, executes, done⟩ := runs s
  exact ⟨t, executes, done holds⟩

end A32Assembler
