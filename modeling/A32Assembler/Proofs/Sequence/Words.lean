import A32Assembler.Proofs.Check
import A32Assembler.Sequence.Constant

/-!
# Words of sequences

A sequence has words exactly when every place holds an instruction that has one, and the words of
its parts follow one another.
-/

namespace A32Assembler.Sequence

variable {c : Condition} {s t : Sequence} {ws : List Word}

/-- The empty sequence has no words. -/
@[simp] theorem words_nil : words [] = .ok ws ↔ ws = [] := by
  rw [words, List.mapM_nil, pure_eq_ok, eq_comm]

/-- The words of a sequence start with that of its first instruction. -/
theorem words_cons {x : Except Misuse Predicated} :
    words (x :: s) = .ok ws ↔
      ∃ p w vs, x = .ok p ∧ p.encode = .ok w ∧ s.words = .ok vs ∧ ws = w :: vs := by
  simp only [words, List.mapM_cons, bind_eq_ok, pure_eq_ok]
  constructor
  · rintro ⟨w, hw, vs, hvs, rfl⟩
    obtain ⟨p, hp, hw⟩ := bind_eq_ok.mp hw
    exact ⟨p, w, vs, hp, hw, hvs, rfl⟩
  · rintro ⟨p, w, vs, rfl, hw, hvs, rfl⟩
    exact ⟨w, hw, vs, hvs, rfl⟩

/-- The words of two sequences in a row. -/
theorem words_append :
    (s ++ t).words = .ok ws ↔ ∃ us vs, s.words = .ok us ∧ t.words = .ok vs ∧ ws = us ++ vs := by
  simp only [words, List.mapM_append, bind_eq_ok, pure_eq_ok]
  constructor
  · rintro ⟨us, hus, vs, hvs, rfl⟩
    exact ⟨us, vs, hus, hvs, rfl⟩
  · rintro ⟨us, vs, hus, hvs, rfl⟩
    exact ⟨us, hus, vs, hvs, rfl⟩

/-- No instructions have no words. -/
@[simp] theorem words_issue_nil : (issue c []).words = .ok ws ↔ ws = [] := words_nil

/-- The words of instructions under one condition start with that of the first. -/
@[simp] theorem words_issue_cons {i : Instruction} {is : List Instruction} :
    (issue c (i :: is)).words = .ok ws ↔
      ∃ w vs, i.encode c = .ok w ∧ (issue c is).words = .ok vs ∧ ws = w :: vs := by
  rw [issue, List.map_cons, words_cons]
  constructor
  · rintro ⟨p, w, vs, hp, hw, hvs, rfl⟩
    cases hp
    exact ⟨w, vs, hw, hvs, rfl⟩
  · rintro ⟨w, vs, hw, hvs, rfl⟩
    exact ⟨⟨c, i⟩, w, vs, rfl, hw, hvs, rfl⟩

/-- A sequence has a word for each of its places. -/
theorem length_words (spelled : s.words = .ok ws) : ws.length = s.length := by
  induction s generalizing ws with
  | nil => rw [words_nil.mp spelled]; rfl
  | cons x s ih =>
    obtain ⟨p, w, vs, -, -, rest, rfl⟩ := words_cons.mp spelled
    rw [List.length_cons, List.length_cons, ih rest]

/-- Every word of a sequence is that of the instruction in its place. -/
theorem getElem?_of_words (spelled : s.words = .ok ws) {k : Nat} {w : Word}
    (found : ws[k]? = some w) : ∃ p, s[k]? = some (.ok p) ∧ p.encode = .ok w := by
  induction s generalizing ws k with
  | nil =>
    rw [words_nil.mp spelled] at found
    cases found
  | cons x s ih =>
    obtain ⟨p, v, vs, rfl, encoded, rest, rfl⟩ := words_cons.mp spelled
    cases k with
    | zero =>
      cases found
      exact ⟨p, rfl, encoded⟩
    | succ k => exact ih rest found

end A32Assembler.Sequence
