import A32Assembler.Proofs.Assembler.Calls
import A32Assembler.Proofs.Branch.Layout

/-!
# Branches of a script

Which branches a script has emitted, and what the label table and the code say of each of them at
any time: a branch whose label is bound has the displacement of that label, every other branch waits
for its label. Each call keeps this, so every script does.
-/

namespace A32Assembler

open EmittedBranch

/-- The branches emitted and not forgotten, after a call that succeeds. -/
def Call.branches (a : Assembler) (h : List EmittedBranch) : Call → List EmittedBranch
  | .branch link l => h ++ [⟨a.position, a.branchKind, link, a.condition, l⟩]
  | .clear => []
  | _ => h

mutual

/-- The branches emitted and not forgotten, after a step. -/
def Step.branches (a : Assembler) (h : List EmittedBranch) : Step → List EmittedBranch
  | .call (.ok c) =>
    match a.apply c with
    | .ok _ => c.branches a h
    | .error _ => h
  | .call (.error _) => h
  | .scope c body => branchesOf { a with condition := c } h body

/-- The branches emitted and not forgotten, after the steps that ran. -/
def branchesOf (a : Assembler) (h : List EmittedBranch) : List Step → List EmittedBranch
  | [] => h
  | s :: rest =>
    match s.run a with
    | (_, some b) => branchesOf b (s.branches a h) rest
    | (_, none) => s.branches a h

end

/-- Issuing instructions emits no branch to a label. -/
theorem Call.Issues.branches_eq {a : Assembler} {h : List EmittedBranch} {call : Call}
    (issues : call.Issues) : call.branches a h = h := by
  cases call with
  | branch | clear => cases issues
  | _ => rfl

/-- A question does not, either. -/
theorem Call.Asks.branches_eq {a : Assembler} {h : List EmittedBranch} {call : Call}
    (asks : call.Asks) : call.branches a h = h := by
  cases call with
  | branch | clear => cases asks
  | _ => rfl

/-- The label table and the code agree with the branches: those of a bound label are aimed at its
position, and for any other label exactly its branches wait, in the order of their emission. -/
structure Tracks (a : Assembler) (h : List EmittedBranch) : Prop where
  laid : Laid a.buffer h
  known : ∀ e ∈ h, ∃ s, a.labels.state e.label = .ok s
  waiting : ∀ l ps, a.labels.state l = .ok (.unbound ps) →
    ps = (h.filter fun e ↦ e.label = l).map pending
  aligned : ∀ l target, a.labels.state l = .ok (.bound target) → target % 4 = 0
  aimed : ∀ e ∈ h, ∀ target, a.labels.state e.label = .ok (.bound target) →
    e.AimedAt a.buffer target

namespace Tracks

variable {a b : Assembler} {h : List EmittedBranch} {l : Label}

/-- A fresh assembler has no branches. -/
theorem start {settings : Settings} : Tracks (.start settings) [] where
  laid := .nil
  known := by simp
  waiting l ps found := by simp [Assembler.start, LabelTable.empty, LabelTable.state] at found
  aligned l target found := by simp [Assembler.start, LabelTable.empty, LabelTable.state] at found
  aimed := by simp

/-- The condition and the settings do not matter. -/
theorem congr (inv : Tracks a h) (buffer : b.buffer = a.buffer) (labels : b.labels = a.labels) :
    Tracks b h := by
  obtain ⟨laid, known, waiting, aligned, aimed⟩ := inv
  constructor
  all_goals (try rw [buffer]); try rw [labels]
  exacts [laid, known, waiting, aligned, aimed]

/-- Words behind the code. -/
theorem append (inv : Tracks a h) {ws : List Word} : Tracks (a.append ws) h where
  laid := inv.laid.emitAll
  known := inv.known
  waiting := inv.waiting
  aligned := inv.aligned
  aimed e mem target found := (inv.aimed e mem target found).emitAll

/-- A fresh label. -/
theorem newLabel (inv : Tracks a h) : Tracks a.newLabel.2 h := by
  have old {e : EmittedBranch} (mem : e ∈ h) : e.label.index ≠ a.labels.size := by
    obtain ⟨s, found⟩ := inv.known e mem
    obtain ⟨inside, -⟩ := Array.getElem?_eq_some_iff.mp (LabelTable.state_eq_ok.mp found)
    exact Nat.ne_of_lt inside
  have same {e : EmittedBranch} (mem : e ∈ h) :
      a.newLabel.2.labels.state e.label = a.labels.state e.label :=
    LabelTable.state_newLabel.trans (if_neg (old mem))
  refine ⟨inv.laid, fun e mem ↦ ?_, fun l ps found ↦ ?_, fun l target found ↦ ?_,
    fun e mem target found ↦ ?_⟩
  · rw [same mem]
    exact inv.known e mem
  · have found' := LabelTable.state_newLabel.symm.trans found
    split at found'
    · next fresh =>
      cases found'
      have none : h.filter (fun e ↦ e.label = l) = [] :=
        List.filter_eq_nil_iff.mpr fun e mem same ↦ old mem (by simp_all)
      rw [none]
      rfl
    · exact inv.waiting l ps found'
  · have found' := LabelTable.state_newLabel.symm.trans found
    split at found'
    · cases found'
    · exact inv.aligned l target found'
  · exact inv.aimed e mem target ((same mem).symm.trans found)

/-- A label bound at the end of the code: exactly its branches are patched. -/
theorem bind (inv : Tracks a h) (bound : a.bind l = .ok b) : Tracks b h := by
  simp only [Assembler.bind, bind_eq_ok, pure_eq_ok] at bound
  obtain ⟨⟨labels, buffer⟩, bound, rfl⟩ := bound
  obtain ⟨ps, found, patched, rfl⟩ := LabelTable.bind_cases bound
  rw [inv.waiting l ps found] at patched
  have part : (h.filter fun e ↦ e.label = l).Sublist h := List.filter_sublist
  have among {e : EmittedBranch} (mem : e ∈ h) :
      e ∈ h.filter (fun e ↦ e.label = l) ↔ e.label = l := by
    simp [mem]
  have there := LabelTable.state_setState_self (s := .bound a.position) found
  refine ⟨inv.laid.patchAll part patched, fun e mem ↦ ?_, fun l' ps' found' ↦ ?_,
    fun l' target found' ↦ ?_, fun e mem target found' ↦ ?_⟩
  · exact LabelTable.exists_state_setState (inv.known e mem)
  · have other : l' ≠ l := by
      rintro rfl
      cases there.symm.trans found'
    rw [LabelTable.state_setState_of_ne other] at found'
    exact inv.waiting l' ps' found'
  · by_cases same : l' = l
    · subst same
      cases there.symm.trans found'
      exact a.buffer.size_mod
    · rw [LabelTable.state_setState_of_ne same] at found'
      exact inv.aligned l' target found'
  · by_cases same : e.label = l
    · rw [same] at found'
      cases there.symm.trans found'
      exact inv.laid.aimedAt_of_mem part patched e ((among mem).mpr same)
    · rw [LabelTable.state_setState_of_ne same] at found'
      exact inv.laid.aimedAt_of_not_mem part patched mem (same ∘ (among mem).mp)
        (inv.aimed e mem target found')

private theorem known_last (inv : Tracks a h) {e : EmittedBranch} {s : LabelState}
    (found : a.labels.state e.label = .ok s) :
    ∀ d ∈ h ++ [e], ∃ s, a.labels.state d.label = .ok s := by
  intro d mem
  obtain mem | mem := List.mem_append.mp mem
  · exact inv.known d mem
  · rw [List.mem_singleton.mp mem]
    exact ⟨s, found⟩

private theorem branch_to_bound (inv : Tracks a h) {e : EmittedBranch} {ws : List Word}
    {target : Nat} {b' : CodeBuffer} (laid : Laid (a.buffer.emitAll ws) (h ++ [e]))
    (found : a.labels.state e.label = .ok (.bound target))
    (patched : patchBranch (a.buffer.emitAll ws) e.position e.kind target = .ok b') :
    Tracks { a with buffer := b' } (h ++ [e]) := by
  have part : [e].Sublist (h ++ [e]) := List.sublist_append_right h [e]
  have patched' : ([e].map pending).foldlM (fun b p ↦ patchBranch b p.position p.kind target)
      (a.buffer.emitAll ws) = .ok b' := by
    simpa [pending] using patched
  refine ⟨laid.patchAll part patched', inv.known_last found, fun l ps found' ↦ ?_, inv.aligned,
    fun d mem target' found' ↦ ?_⟩
  · have other : e.label ≠ l := by
      rintro rfl
      cases found.symm.trans found'
    simpa [other] using inv.waiting l ps found'
  · by_cases last : d ∈ [e]
    · rw [List.mem_singleton.mp last] at found'
      cases found.symm.trans found'
      exact laid.aimedAt_of_mem part patched' d last
    · have mem' := (List.mem_append.mp mem).resolve_right last
      exact laid.aimedAt_of_not_mem part patched' mem last (inv.aimed d mem' target' found').emitAll

private theorem branch_to_unbound (inv : Tracks a h) {e : EmittedBranch} {ws : List Word}
    {ps : List PendingBranch} (laid : Laid (a.buffer.emitAll ws) (h ++ [e]))
    (found : a.labels.state e.label = .ok (.unbound ps)) :
    Tracks { a with
      buffer := a.buffer.emitAll ws
      labels := a.labels.setState e.label (.unbound (ps ++ [e.pending])) } (h ++ [e]) := by
  have there := LabelTable.state_setState_self (s := .unbound (ps ++ [e.pending])) found
  refine ⟨laid, fun d mem ↦ ?_, fun l ps' found' ↦ ?_, fun l target found' ↦ ?_,
    fun d mem target found' ↦ ?_⟩
  · exact LabelTable.exists_state_setState (inv.known_last found d mem)
  · by_cases same : e.label = l
    · subst same
      cases there.symm.trans found'
      simp [inv.waiting e.label ps found]
    · rw [LabelTable.state_setState_of_ne (Ne.symm same)] at found'
      simpa [same] using inv.waiting l ps' found'
  · by_cases same : l = e.label
    · subst same
      cases there.symm.trans found'
    · rw [LabelTable.state_setState_of_ne same] at found'
      exact inv.aligned l target found'
  · by_cases same : d.label = e.label
    · rw [same] at found'
      cases there.symm.trans found'
    · rw [LabelTable.state_setState_of_ne same] at found'
      have last : d ∉ [e] := fun last ↦ same (congrArg label (List.mem_singleton.mp last))
      have mem' := (List.mem_append.mp mem).resolve_right last
      exact (inv.aimed d mem' target found').emitAll

/-- A branch: turned toward its label at once if that is bound, else the last to wait for it. -/
theorem branch (inv : Tracks a h) {link : Bool} (done : a.branch link l = .ok b) :
    Tracks b (h ++ [⟨a.position, a.branchKind, link, a.condition, l⟩]) := by
  simp only [Assembler.branch, Assembler.issueAll, bind_eq_ok, pure_eq_ok] at done
  obtain ⟨b1, ⟨ws, words, rfl⟩, ⟨labels, buffer⟩, linked, rfl⟩ := done
  rw [words_openBranch] at words
  cases words
  have laid := inv.laid.openBranch a.condition a.branchKind link l
  obtain ⟨target, found, patched, rfl⟩ | ⟨ps, found, rfl, rfl⟩ := LabelTable.link_cases linked
  · exact inv.branch_to_bound laid found patched
  · exact inv.branch_to_unbound laid found

/-- Every call that succeeds keeps the label table and the code in agreement with the branches. -/
theorem apply (inv : Tracks a h) {c : Call} {answer : Answer} (done : a.apply c = .ok (answer, b)) :
    Tracks b (c.branches a h) := by
  cases Assembler.apply_does done with
  | issue issues spelled => exact issues.branches_eq ▸ inv.append
  | word w => exact inv.append
  | branch done => exact inv.branch done
  | bind done => exact inv.bind done
  | newLabel => exact inv.newLabel
  | setFarBranches far | setFeatures features => exact inv.congr rfl rfl
  | clear => exact start
  | ask asks => exact asks.branches_eq ▸ inv

end Tracks

mutual

/-- Every step that leaves an assembler keeps the agreement. -/
theorem Tracks.step {a b : Assembler} {h : List EmittedBranch} {r : Record} (inv : Tracks a h) :
    ∀ {s : Step}, s.run a = (r, some b) → Tracks b (s.branches a h)
  | .call c, ran => by
    obtain ⟨made, answer, rfl, done⟩ | ⟨rfl, refused⟩ := Step.run_call ran
    · rw [Step.branches, done]
      exact inv.apply done
    · cases c with
      | error e => exact inv
      | ok made =>
        obtain ⟨e, refused⟩ := refused made rfl
        rw [Step.branches, refused]
        exact inv
  | .scope c body, ran => by
    obtain ⟨records, last, inside, rfl⟩ := Step.run_scope ran
    have inv' : Tracks { a with condition := c } h := inv.congr rfl rfl
    exact (inv'.script inside).congr rfl rfl

/-- Every script that does not end in a misuse keeps the agreement. -/
theorem Tracks.script {a b : Assembler} {h : List EmittedBranch} {rs : List Record}
    (inv : Tracks a h) :
    ∀ {steps : List Step}, runSteps a steps = (rs, some b) → Tracks b (branchesOf a h steps)
  | [], ran => by
    cases ran
    exact inv
  | s :: rest, ran => by
    obtain ⟨r, next, records, first, others⟩ := runSteps_cons ran
    rw [branchesOf, first]
    exact (inv.step first).script others

end

end A32Assembler
