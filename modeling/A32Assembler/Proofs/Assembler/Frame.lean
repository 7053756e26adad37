import A32Assembler.Proofs.Assembler.InPlace
import A32Assembler.Proofs.Branch.Frame
import A32Assembler.Proofs.Branch.Pending

/-!
# What calls leave alone

Calls append words and leave those before them alone, in value and in place. Binding a label is the
one exception: it turns the branches that wait for this label, and only in the fields of their
displacements. A call that is refused leaves everything alone.
-/

namespace A32Assembler

variable {a b : Assembler} {call : Call} {h : List EmittedBranch} {l : Label}

namespace Call.Does

/-- Every call but binding and clearing appends words. -/
theorem prefix_words (does : call.Does a b) (kept : call ≠ .clear) (unbound : ∀ l, call ≠ .bind l) :
    a.buffer.words <+: b.buffer.words := by
  cases does with
  | issue issues spelled => exact ⟨_, (a.buffer.words_emitAll _).symm⟩
  | word w => exact ⟨_, (a.buffer.words_emitAll [w]).symm⟩
  | branch done =>
    obtain ⟨offset, spelled, -⟩ := Assembler.words_branch done
    exact ⟨_, spelled.symm⟩
  | bind done => exact absurd rfl (unbound _)
  | clear => exact absurd rfl kept
  | newLabel | setFarBranches far | setFeatures features | ask asks => exact List.prefix_rfl

/-- A fresh label appends nothing. -/
theorem newLabel_buffer (does : Call.newLabel.Does a b) : b.buffer = a.buffer := by
  cases does with
  | newLabel => rfl
  | issue issues spelled => cases issues
  | ask asks => rfl

/-- Binding appends nothing and turns the branches that wait. -/
theorem bind_words (does : (Call.bind l).Does a b) (inv : Tracks a h) :
    b.buffer.size = a.buffer.size ∧ ∃ ps, a.labels.state l = .ok (.unbound ps) ∧
      ∀ (i : Nat) (v w : Word), a.buffer.words[i]? = some v → b.buffer.words[i]? = some w → v = w ∨
        ∃ e ∈ h, e.label = l ∧ e.pending ∈ ps ∧ e.Turns i v w := by
  cases does with
  | issue issues spelled => cases issues
  | ask asks => cases asks
  | bind done =>
    obtain ⟨size, turned⟩ := Assembler.words_bind inv done
    simp only [Assembler.bind, bind_eq_ok, pure_eq_ok] at done
    obtain ⟨⟨labels, buffer⟩, bound, rfl⟩ := done
    obtain ⟨ps, found, -, -⟩ := LabelTable.bind_cases bound
    refine ⟨size, ps, found, fun i v w before after ↦ ?_⟩
    refine (turned i v w before after).imp_right ?_
    rintro ⟨e, mem, label, turns⟩
    refine ⟨e, mem, label, ?_, turns⟩
    rw [inv.waiting l ps found]
    exact List.mem_map_of_mem (List.mem_filter.mpr ⟨mem, by simpa using label⟩)

end Call.Does

/-- What a call in place leaves is what it does, or the assembler before it. -/
theorem InPlace.perform_cases {result : Except Refusal Answer}
    (done : call.perform.start a = .ok (result, b)) :
    (∃ answer, result = .ok answer ∧ call.Does a b) ∨ (∃ r, result = .error r ∧ b = a) := by
  rw [Call.start_perform] at done
  cases applied : a.apply call with
  | ok p =>
    rw [applied] at done
    cases done
    exact .inl ⟨_, rfl, Assembler.apply_does applied⟩
  | error e =>
    rw [applied] at done
    cases e with
    | misuse m => cases done
    | refusal r =>
      cases done
      exact .inr ⟨r, rfl, rfl⟩

/-- In every assembler that a script can lead to and under every condition, a call that is not
misused and does not clear keeps the words before it in their places. They keep their values, too,
unless the call binds a label: then the branches that wait for this label are turned, in the fields
of their displacements and nowhere else. Binding and making labels append nothing, the code ends
with a whole word, and a refused call leaves everything as it was. -/
theorem words_stay {settings : Settings} {steps : List Step} {records : List Record}
    {c : Condition} {result : Except Refusal Answer}
    (ran : runSteps (.start settings) steps = (records, some a)) (kept : call ≠ .clear)
    (done : call.perform.start { a with condition := c } = .ok (result, b)) :
    b.position % 4 = 0 ∧
    (∀ r, result = .error r → b = { a with condition := c }) ∧
    ((∀ l, call ≠ .bind l) → a.buffer.words <+: b.buffer.words) ∧
    (call = .newLabel → b.buffer = a.buffer) ∧
    ∀ l answer, call = .bind l → result = .ok answer → b.buffer.size = a.buffer.size ∧
      ∃ ps, a.labels.state l = .ok (.unbound ps) ∧
        ∀ (i : Nat) (v w : Word), a.buffer.words[i]? = some v → b.buffer.words[i]? = some w →
          v = w ∨ ∃ e ∈ branchesOf (.start settings) [] steps,
            e.label = l ∧ e.pending ∈ ps ∧ e.Turns i v w := by
  have inv : Tracks { a with condition := c } (branchesOf (.start settings) [] steps) :=
    (Tracks.start.script ran).congr rfl rfl
  refine ⟨b.buffer.size_mod, ?_⟩
  obtain ⟨answer, rfl, does⟩ | ⟨r, rfl, rfl⟩ := InPlace.perform_cases done
  · refine ⟨fun r refused ↦ ?_, does.prefix_words kept, fun fresh ↦ ?_, fun l _ binds _ ↦ ?_⟩
    · cases refused
    · subst fresh
      exact does.newLabel_buffer
    · subst binds
      exact does.bind_words inv
  · refine ⟨fun _ _ ↦ rfl, fun _ ↦ List.prefix_rfl, fun _ ↦ rfl, fun l answer _ accepted ↦ ?_⟩
    cases accepted

/-- Binding the first label of the open branches inside a scope. -/
theorem bound_words_stay : ∃ a b, (runSteps (.start (.near .full)) openBranches).2 = some a ∧
    (Call.bind ⟨0⟩).perform.start { a with condition := .ne } = .ok (.ok .nothing, b) ∧
    b.buffer.size = a.buffer.size ∧ a.labels.pendingCount ⟨0⟩ = .ok 2 ∧
    ∀ (i : Nat) (v w : Word), a.buffer.words[i]? = some v → b.buffer.words[i]? = some w → v = w ∨
      ∃ e ∈ branchesOf (.start (.near .full)) [] openBranches, e.label = ⟨0⟩ ∧ e.Turns i v w := by
  have facts : (runSteps (.start (.near .full)) openBranches).2.map (fun a ↦
      ((a.labels.states[0]?.map fun s ↦ s.pending.length),
        (Assembler.bind { a with condition := .ne } ⟨0⟩).isOk)) = some (some 2, true) := by
    decide +kernel
  obtain ⟨a, ran, facts⟩ := Option.map_eq_some_iff.mp facts
  simp only [Prod.mk.injEq] at facts
  obtain ⟨waiting, accepted⟩ := facts
  obtain ⟨s, state, long⟩ := Option.map_eq_some_iff.mp waiting
  have two : a.labels.pendingCount ⟨0⟩ = .ok 2 := by
    rw [LabelTable.pendingCount, LabelTable.state_eq_ok.mpr state]
    exact congrArg Except.ok long
  cases bound : Assembler.bind { a with condition := .ne } ⟨0⟩ with
  | error m => simp [bound, Except.isOk, Except.toBool] at accepted
  | ok b =>
    have done : (Call.bind ⟨0⟩).perform.start { a with condition := .ne } =
        .ok (.ok .nothing, b) := by
      rw [Call.start_perform, Assembler.apply, bound]
      rfl
    obtain ⟨-, -, -, -, patches⟩ := words_stay (Prod.ext rfl ran) (by simp) done
    obtain ⟨size, ps, -, turned⟩ := patches ⟨0⟩ .nothing rfl rfl
    refine ⟨a, b, ran, done, size, two, fun i v w before after ↦ ?_⟩
    refine (turned i v w before after).imp_right ?_
    rintro ⟨e, mem, label, -, turns⟩
    exact ⟨e, mem, label, turns⟩

end A32Assembler
