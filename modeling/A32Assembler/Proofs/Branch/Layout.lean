import A32Assembler.Proofs.Branch.Patching
import Mathlib.Data.List.Pairwise

/-!
# Layout of branches

Emitted branches lie in the code apart from each other. Emitting words keeps them there, and so does
patching some of them, which turns exactly those.
-/

namespace A32Assembler

open EmittedBranch

/-- The branches lie in the code, apart from each other, each with some displacement. -/
structure Laid (b : CodeBuffer) (h : List EmittedBranch) : Prop where
  aligned : ∀ e ∈ h, e.position % 4 = 0
  inside : ∀ e ∈ h, e.stop ≤ b.size
  apart : h.Pairwise Apart
  there : ∀ e ∈ h, ∃ offset, b.HasAt e.position (e.words offset)

namespace Laid

variable {b b' : CodeBuffer} {h es : List EmittedBranch} {ws : List Word} {target : Nat}

/-- Without branches there is nothing to lie. -/
theorem nil : Laid b [] := ⟨by simp, by simp, .nil, by simp⟩

/-- Words behind the code. -/
theorem emitAll (laid : Laid b h) : Laid (b.emitAll ws) h where
  aligned := laid.aligned
  inside e mem := by
    have inside := laid.inside e mem
    rw [CodeBuffer.size_emitAll]
    omega
  apart := laid.apart
  there e mem := by
    obtain ⟨offset, there⟩ := laid.there e mem
    exact ⟨offset, there.emitAll⟩

/-- An open branch behind the code. -/
theorem openBranch (laid : Laid b h) (c : Condition) (kind : BranchKind) (link : Bool) (l : Label) :
    Laid (b.emitAll (branchWords c kind link 0)) (h ++ [⟨b.size, kind, link, c, l⟩]) where
  aligned e mem := by
    obtain mem | mem := List.mem_append.mp mem
    · exact laid.aligned e mem
    · rw [List.mem_singleton.mp mem]
      exact b.size_mod
  inside e mem := by
    obtain mem | mem := List.mem_append.mp mem
    · exact laid.emitAll.inside e mem
    · rw [List.mem_singleton.mp mem, CodeBuffer.size_emitAll, length_branchWords]
      exact Nat.le_refl _
  apart := by
    refine List.pairwise_append.mpr ⟨laid.apart, List.pairwise_singleton _ _, ?_⟩
    intro d mem e last
    rw [List.mem_singleton.mp last]
    exact .inl (laid.inside d mem)
  there e mem := by
    obtain mem | mem := List.mem_append.mp mem
    · exact laid.emitAll.there e mem
    · rw [List.mem_singleton.mp mem]
      exact ⟨0, CodeBuffer.hasAt_emitAll⟩

/-- A branch that is not among those patched is apart from them. -/
theorem apart_of_not_mem (laid : Laid b h) (part : es.Sublist h) {d : EmittedBranch} (mem : d ∈ h)
    (other : d ∉ es) : ∀ e ∈ es, d.Apart e := by
  have symm : Std.Symm Apart := ⟨fun _ _ ↦ Apart.symm⟩
  intro e mem'
  exact laid.apart.forall mem (part.subset mem') fun same ↦ other (same ▸ mem')

/-- Patching some of the branches keeps all of them in place. -/
theorem patchAll (laid : Laid b h) (part : es.Sublist h)
    (patched : (es.map pending).foldlM (fun b p ↦ patchBranch b p.position p.kind target) b =
      .ok b') : Laid b' h where
  aligned := laid.aligned
  inside e mem := by
    rw [size_patchAll patched]
    exact laid.inside e mem
  apart := laid.apart
  there e mem := by
    by_cases among : e ∈ es
    · have there := fun d mem ↦ laid.there d (part.subset mem)
      obtain ⟨offset, -, -, there⟩ :=
        aimedAt_patchAll (laid.apart.sublist part) there patched e among
      exact ⟨offset, there⟩
    · obtain ⟨offset, there⟩ := laid.there e mem
      exact ⟨offset, words_patchAll (laid.apart_of_not_mem part mem among) there patched⟩

/-- The patched branches are aimed at the target. -/
theorem aimedAt_of_mem (laid : Laid b h) (part : es.Sublist h)
    (patched : (es.map pending).foldlM (fun b p ↦ patchBranch b p.position p.kind target) b =
      .ok b') : ∀ e ∈ es, e.AimedAt b' target :=
  aimedAt_patchAll (laid.apart.sublist part) (fun d mem ↦ laid.there d (part.subset mem)) patched

/-- The other branches stay aimed where they were. -/
theorem aimedAt_of_not_mem (laid : Laid b h) (part : es.Sublist h)
    (patched : (es.map pending).foldlM (fun b p ↦ patchBranch b p.position p.kind target) b =
      .ok b') {d : EmittedBranch} (mem : d ∈ h) (other : d ∉ es) {target' : Nat}
    (aimed : d.AimedAt b target') : d.AimedAt b' target' := by
  obtain ⟨offset, distance, range, there⟩ := aimed
  exact ⟨offset, distance, range,
    words_patchAll (laid.apart_of_not_mem part mem other) there patched⟩

end Laid

namespace LabelTable

variable {t : LabelTable} {l l' : Label} {s : LabelState}

/-- A label has the state that stands at its index. -/
theorem state_eq_ok : t.state l = .ok s ↔ t.states[l.index]? = some s := by
  unfold state
  cases t.states[l.index]? <;> simp

/-- A label is bound where its state says. -/
theorem position?_eq_ok {target : Nat} :
    t.position? l = .ok (some target) ↔ t.state l = .ok (.bound target) := by
  simp only [position?, bind_eq_ok]
  constructor
  · rintro ⟨s, found, position⟩
    cases s with
    | bound p =>
      cases position
      exact found
    | unbound ps => cases position
  · exact fun found ↦ ⟨_, found, rfl⟩

/-- A label with a new state has that state. -/
theorem state_setState_self {s' : LabelState} (found : t.state l = .ok s') :
    (t.setState l s).state l = .ok s := by
  obtain ⟨inside, -⟩ := Array.getElem?_eq_some_iff.mp (state_eq_ok.mp found)
  rw [state_eq_ok, setState, Array.getElem?_setIfInBounds_self_of_lt inside]

/-- A new state of one label leaves the others alone. -/
theorem state_setState_of_ne (other : l' ≠ l) : (t.setState l s).state l' = t.state l' := by
  have apart : l.index ≠ l'.index := fun same ↦ other (by cases l; cases l'; simp_all)
  rw [state, state, setState, Array.getElem?_setIfInBounds_ne apart]

/-- A new state of one label leaves every label known that was. -/
theorem exists_state_setState (known : ∃ s', t.state l' = .ok s') :
    ∃ s', (t.setState l s).state l' = .ok s' := by
  obtain ⟨s', found⟩ := known
  by_cases same : l' = l
  · subst same
    exact ⟨s, state_setState_self found⟩
  · exact ⟨s', (state_setState_of_ne same).trans found⟩

/-- A fresh label is not bound and nothing waits for it; the others stay as they are. -/
theorem state_newLabel :
    t.newLabel.2.state l =
      if l.index = t.size then .ok (.unbound []) else t.state l := by
  simp only [newLabel, state, Array.getElem?_push, size]
  by_cases fresh : l.index = t.states.size <;> simp [fresh]

variable {t' : LabelTable} {b b' : CodeBuffer} {position target : Nat} {kind : BranchKind}

/-- What linking does: it patches the branch, or lets it wait. -/
theorem link_cases (h : t.link b l position kind = .ok (t', b')) :
    (∃ target, t.state l = .ok (.bound target) ∧ patchBranch b position kind target = .ok b' ∧
      t' = t) ∨
    ∃ ps, t.state l = .ok (.unbound ps) ∧ t' = t.setState l (.unbound (ps ++ [⟨position, kind⟩])) ∧
      b' = b := by
  obtain ⟨s, found, linked⟩ := bind_eq_ok.mp h
  cases s with
  | bound target =>
    obtain ⟨b1, patched, same⟩ := bind_eq_ok.mp linked
    cases same
    exact .inl ⟨target, found, patched, rfl⟩
  | unbound ps =>
    cases linked
    exact .inr ⟨ps, found, rfl, rfl⟩

/-- What binding does: it patches all branches that wait. -/
theorem bind_cases (h : t.bind b l target = .ok (t', b')) :
    ∃ ps, t.state l = .ok (.unbound ps) ∧
      ps.foldlM (fun b p ↦ patchBranch b p.position p.kind target) b = .ok b' ∧
      t' = t.setState l (.bound target) := by
  obtain ⟨s, found, bound⟩ := bind_eq_ok.mp h
  cases s with
  | bound previous => cases bound
  | unbound ps =>
    obtain ⟨b1, patched, same⟩ := bind_eq_ok.mp bound
    cases same
    exact ⟨ps, found, patched, rfl⟩

end LabelTable

end A32Assembler
