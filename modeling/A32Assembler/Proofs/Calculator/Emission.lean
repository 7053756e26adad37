import A32Assembler.Calculator.Compiler
import A32Assembler.Proofs.Assembler.Calls
import A32Assembler.Proofs.Division.Fallback
import A32Assembler.Proofs.Sequence.Constant

/-!
# Emitted code

What the code of an emission does: the calls append certain words, whatever the assembler holds, and
running those words relates every state to the one behind them. Emissions in a row compose, and an
emission that is exhausted says nothing.
-/

namespace A32Assembler

open Machine

/-- Under `AL` and with given features, calls append words and do nothing else. -/
def Appends (features : Features) (calls : List Call) (ws : List Word) : Prop :=
  ∀ a : Assembler, a.condition = .al → a.settings.features = features →
    a.applyAll calls = .ok (a.append ws)

namespace Appends

variable {features : Features} {calls calls' : List Call} {ws vs : List Word}

/-- No calls append nothing. -/
theorem nil : Appends features [] [] := fun _ _ _ ↦ rfl

/-- Calls in a row append their words in a row. -/
theorem append (first : Appends features calls ws) (second : Appends features calls' vs) :
    Appends features (calls ++ calls') (ws ++ vs) := by
  intro a al same
  rw [Assembler.applyAll, List.foldlM_append]
  refine bind_eq_ok.mpr ⟨_, first a al same, ?_⟩
  rw [← Assembler.append_append]
  exact second (a.append ws) al same

private theorem one {c : Call} (h : ∀ a : Assembler, a.condition = .al →
    a.settings.features = features → a.apply c = .ok (.nothing, a.append ws)) :
    Appends features [c] ws := by
  intro a al same
  simp only [Assembler.applyAll, List.foldlM_cons, List.foldlM_nil, h a al same]
  rfl

/-- An instruction appends its word. -/
theorem issue {i : Instruction} {w : Word} (word : i.encode .al = .ok w) :
    Appends features [.issue i] [w] := by
  refine one fun a al _ ↦ ?_
  rw [Assembler.apply, Assembler.issue, al, word]
  rfl

/-- A request appends the words of its sequence. -/
theorem expand {r : Request} (words : (r.sequence features .al).words = .ok ws) :
    Appends features [.expand r] ws := by
  refine one fun a al same ↦ Sequence.apply_expand ?_
  rw [al, same]
  exact words

end Appends

namespace Calculator

open Sequence

/-- Unless it is exhausted, an emission ends with `k` temporaries in use, and its code has an
effect. -/
def Emission.Yields (u : FloatUnit) (features : Features) (e : Emission) (k : Nat)
    (effect : State → State → Prop) : Prop :=
  e.exhausted = false → e.inUse = k ∧
    ∃ ws, Appends features e.calls ws ∧ ∀ s, ∃ t, Executes u ws s t ∧ effect s t

namespace Emission.Yields

variable {u : FloatUnit} {features : Features} {e : Emission} {next : Nat → Emission} {j k : Nat}
  {calls calls' : List Call} {effect effect' both : State → State → Prop}

/-- One emission and then another. -/
theorem andThen (first : e.Yields u features j effect)
    (second : (next j).Yields u features k effect')
    (composed : ∀ s t r, effect s t → effect' t r → both s r) :
    (e.andThen next).Yields u features k both := by
  intro fits
  unfold Emission.andThen at fits ⊢
  split at fits
  · next exhausted => simp [exhausted] at fits
  · next completed =>
    obtain ⟨rfl, ws, appends, runs⟩ := first (by simpa using completed)
    obtain ⟨inUse, vs, appends', runs'⟩ := second fits
    rw [if_neg completed]
    refine ⟨inUse, ws ++ vs, appends.append appends', fun s ↦ ?_⟩
    obtain ⟨t, executes, before⟩ := runs s
    obtain ⟨r, executes', after⟩ := runs' t
    exact ⟨r, executes.append executes', composed s t r before after⟩

/-- The next temporary, if there is one. -/
theorem take {next : Register → Nat → Emission}
    (h : ∀ r, temporaries[j]? = some r → (next r (j + 1)).Yields u features k effect) :
    (Emission.take j next).Yields u features k effect := by
  unfold Emission.take
  split
  · next r found => exact h r found
  · intro fits
    cases fits

/-- The temporary taken last is free again. -/
theorem release (h : e.Yields u features (k + 1) effect) :
    (e.andThen .release).Yields u features k effect := by
  have released : (Emission.release (k + 1)).Yields u features k fun s t ↦ t = s :=
    fun _ ↦ ⟨rfl, [], .nil, fun s ↦ ⟨s, .nil, rfl⟩⟩
  refine h.andThen released ?_
  rintro s t _ before rfl
  exact before

/-- A single instruction. -/
theorem issue {i : Instruction} (h : (Sequence.issue .al [i]).HasEffect u effect) :
    (Emission.run [.issue i] k).Yields u features k effect := by
  intro _
  obtain ⟨ws, words, runs⟩ := h
  obtain ⟨w, vs, word, rest, rfl⟩ := words_issue_cons.mp words
  cases words_issue_nil.mp rest
  exact ⟨rfl, [w], .issue word, runs⟩

/-- A single request. -/
theorem expand {r : Request} (h : (r.sequence features .al).HasEffect u effect) :
    (Emission.run [.expand r] k).Yields u features k effect := by
  intro _
  obtain ⟨ws, words, runs⟩ := h
  exact ⟨rfl, ws, .expand words, runs⟩

/-- Calls and then other calls. -/
theorem run_append (first : (Emission.run calls k).Yields u features k effect)
    (second : (Emission.run calls' k).Yields u features k effect')
    (composed : ∀ s t r, effect s t → effect' t r → both s r) :
    (Emission.run (calls ++ calls') k).Yields u features k both := by
  have in_a_row : Emission.run (calls ++ calls') k =
      (Emission.run calls k).andThen (Emission.run calls') := rfl
  rw [in_a_row]
  exact first.andThen second composed

end Emission.Yields

end Calculator

end A32Assembler
