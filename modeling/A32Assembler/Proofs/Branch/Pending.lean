import A32Assembler.Executable
import A32Assembler.Proofs.Branch.History
import Mathlib.Data.List.Induction

/-!
# Open branches

The number of branches that wait for a label is kept by the label table, list by list. It is the
number of branches that a script has emitted and whose label is not bound, so none is lost and none
is counted twice. As long as there are any, the code is not handed over.
-/

namespace A32Assembler

open EmittedBranch

/-- Whether the label is known and not bound. -/
def LabelTable.isOpen (t : LabelTable) (l : Label) : Bool :=
  match t.isBound l with
  | .ok bound => !bound
  | .error _ => false

/-- Whether branches can wait. -/
def LabelState.isUnbound : LabelState → Bool
  | unbound _ => true
  | bound _ => false

namespace LabelTable

variable {t : LabelTable} {l l' : Label} {s : LabelState}

/-- A label is open if its state says that it is not bound. -/
theorem isOpen_eq (t : LabelTable) (l : Label) :
    t.isOpen l = (t.states[l.index]?).any LabelState.isUnbound := by
  rw [isOpen, isBound, position?, state]
  cases t.states[l.index]? with
  | none => rfl
  | some s => cases s <;> rfl

/-- A label with a known state is open exactly when this state is not bound. -/
theorem isOpen_of_state (found : t.state l = .ok s) : t.isOpen l = s.isUnbound := by
  rw [isOpen_eq, state_eq_ok.mp found]
  rfl

/-- A new state of one label does not open or close another. -/
theorem isOpen_setState_of_ne (other : l' ≠ l) : (t.setState l s).isOpen l' = t.isOpen l' := by
  rw [isOpen, isOpen, isBound, isBound, position?, position?, state_setState_of_ne other]

end LabelTable

private theorem countP_eq_add {α : Type} {p q r : α → Bool} (xs : List α)
    (split : ∀ x ∈ xs, (p x).toNat = (q x).toNat + (r x).toNat) :
    xs.countP p = xs.countP q + xs.countP r := by
  induction xs with
  | nil => rfl
  | cons x xs ih =>
    have here := split x List.mem_cons_self
    have rest := ih fun y mem ↦ split y (List.mem_cons_of_mem x mem)
    have unit (b : Bool) : (if b = true then 1 else 0) = b.toNat := by cases b <;> rfl
    simp only [List.countP_cons, unit]
    omega

-- What is counted place by place in the table is counted branch by branch in the history.
private theorem length_flatMap_pending (h : List EmittedBranch) (ss : List LabelState)
    (waits : ∀ i ps, ss[i]? = some (.unbound ps) → ps.length = h.countP fun e ↦ e.label.index = i) :
    (ss.flatMap LabelState.pending).length =
      h.countP fun e ↦ (ss[e.label.index]?).any LabelState.isUnbound := by
  induction ss using List.reverseRecOn with
  | nil => simp
  | append_singleton ss s ih =>
    have before : ∀ i ps, ss[i]? = some (.unbound ps) →
        ps.length = h.countP fun e ↦ e.label.index = i := by
      intro i ps found
      obtain ⟨inside, -⟩ := List.getElem?_eq_some_iff.mp found
      exact waits i ps ((List.getElem?_append_left inside).trans found)
    have last : s.pending.length =
        h.countP fun e ↦ s.isUnbound && decide (e.label.index = ss.length) := by
      cases s with
      | unbound ps =>
        simpa [LabelState.pending, LabelState.isUnbound] using
          waits ss.length ps List.getElem?_concat_length
      | bound p => simp [LabelState.pending, LabelState.isUnbound]
    rw [List.flatMap_append, List.length_append, List.flatMap_singleton, ih before, last]
    refine (countP_eq_add h fun e _ ↦ ?_).symm
    obtain below | here | above := Nat.lt_trichotomy e.label.index ss.length
    · rw [List.getElem?_append_left below]
      simp [Nat.ne_of_lt below]
    · simp [here]
    · have outside : (ss ++ [s]).length ≤ e.label.index := by
        rw [List.length_append]
        exact above
      rw [List.getElem?_eq_none outside, List.getElem?_eq_none (Nat.le_of_lt above)]
      simp [Nat.ne_of_gt above]

private theorem error_unless_zero_iff {ε α : Type} {failure : Nat → ε} {x : α} {k n : Nat}
    (tells : Function.Injective failure) :
    (if k = 0 then .ok x else .error (failure k)) = (.error (failure n) : Except ε α) ↔
      n = k ∧ n ≠ 0 := by
  split
  · next none =>
    rw [none]
    simp
  · next some =>
    rw [Except.error.injEq, tells.eq_iff]
    constructor
    · rintro rfl
      exact ⟨rfl, some⟩
    · exact fun same ↦ same.1.symm

namespace Assembler

variable {a b : Assembler} {l : Label} {n : Nat}

/-- The code is refused exactly when branches wait, and the refusal says how many. -/
theorem code_eq_error : a.code = .error (.unresolved n) ↔ n = a.labels.unresolved ∧ n ≠ 0 :=
  error_unless_zero_iff fun _ _ same ↦ Refusal.unresolved.inj same

/-- If no branch waits, the code is the whole buffer. -/
theorem code_eq_ok (none : a.labels.unresolved = 0) : a.code = .ok a.buffer.bytes.toList :=
  if_pos none

/-- No function is made exactly when the code is refused, as far as the code is concerned. -/
theorem function_eq_error {ε : Type} {allocate : Nat → Except ε Nat} {r : Refusal} :
    a.function allocate = .error (.build r) ↔ a.code = .error r := by
  unfold function
  cases a.code with
  | error r' => simp
  | ok code =>
    simp only [Executable.ofCode, reduceCtorEq, iff_false]
    split
    · simp
    · split <;> simp

/-- An assembler with waiting branches must not be given up while nothing has failed. -/
theorem discard_eq_error :
    a.discard false = .error (.abandoned n) ↔ n = a.labels.unresolved ∧ n ≠ 0 := by
  rw [discard, if_neg Bool.false_ne_true, require]
  exact error_unless_zero_iff fun _ _ same ↦ Misuse.abandoned.inj same

/-- Any other assembler can be. -/
theorem discard_eq_ok : a.discard false = .ok () ↔ a.labels.unresolved = 0 := require_eq_ok

/-- While a failure unwinds, every assembler can be. -/
theorem discard_unwinding : a.discard true = .ok () := rfl

/-- A label is bound once. -/
theorem bind_of_bound {p : Nat} (bound : a.labels.position? l = .ok (some p)) :
    a.bind l = .error (.alreadyBound l.index p) := by
  rw [Assembler.bind, LabelTable.bind, LabelTable.position?_eq_ok.mp bound]
  rfl

end Assembler

namespace Tracks

variable {a b : Assembler} {h : List EmittedBranch} {l : Label}

/-- As many branches wait for an open label as have been emitted to it. -/
theorem length_waiting (inv : Tracks a h) {ps : List PendingBranch}
    (found : a.labels.state l = .ok (.unbound ps)) :
    ps.length = h.countP fun e ↦ e.label = l := by
  rw [inv.waiting l ps found, List.length_map, ← List.countP_eq_length_filter]

/-- As many branches wait as have been emitted to labels that are open. -/
theorem unresolved_eq (inv : Tracks a h) :
    a.labels.unresolved = h.countP fun e ↦ a.labels.isOpen e.label := by
  have waits : ∀ i ps, a.labels.states.toList[i]? = some (.unbound ps) →
      ps.length = h.countP fun e ↦ e.label.index = i := by
    intro i ps found
    have known : a.labels.state ⟨i⟩ = .ok (.unbound ps) :=
      LabelTable.state_eq_ok.mpr (by simpa using found)
    rw [inv.length_waiting known]
    congr 1
    funext e
    obtain ⟨position, kind, link, condition, ⟨index⟩⟩ := e
    simp
  rw [LabelTable.unresolved, length_flatMap_pending h _ waits]
  simp [LabelTable.isOpen_eq]

/-- A label that is bound leaves the list of its branches behind: this many fewer wait, and the
lists of all other labels stay as they are. -/
theorem unresolved_bind (inv : Tracks a h) (bound : a.bind l = .ok b) :
    a.labels.pendingCount l = .ok (h.countP fun e ↦ e.label = l) ∧
      b.labels.unresolved + (h.countP fun e ↦ e.label = l) = a.labels.unresolved ∧
      ∀ l' ≠ l, b.labels.pendingCount l' = a.labels.pendingCount l' := by
  have inv' := inv.bind bound
  simp only [Assembler.bind, bind_eq_ok, pure_eq_ok] at bound
  obtain ⟨⟨labels, buffer⟩, bound, rfl⟩ := bound
  obtain ⟨ps, found, -, rfl⟩ := LabelTable.bind_cases bound
  have there := LabelTable.state_setState_self (s := .bound a.position) found
  refine ⟨?_, ?_, fun l' other ↦ ?_⟩
  · rw [LabelTable.pendingCount, found, ← inv.length_waiting found]
    rfl
  · rw [inv.unresolved_eq, inv'.unresolved_eq]
    refine (countP_eq_add h fun e _ ↦ ?_).symm
    by_cases same : e.label = l
    · rw [same, LabelTable.isOpen_of_state found, LabelTable.isOpen_of_state there]
      simp [LabelState.isUnbound]
    · rw [LabelTable.isOpen_setState_of_ne same]
      simp [same]
  · rw [LabelTable.pendingCount, LabelTable.pendingCount, LabelTable.state_setState_of_ne other]

end Tracks

/-- In every assembler that a script can lead to, the number of open branches is the number of
branches emitted since the last `clear` whose label is not bound, near and far ones alike. Binding a
label lowers it by the branches that wait for this label and leaves the lists of the others alone.
The code, and a function made of it, are refused exactly while this number is not zero. Giving the
assembler up fails exactly while it is not zero and no failure unwinds; while one does, it never
fails. No label is bound twice. -/
theorem open_branches_are_counted {settings : Settings} {steps : List Step} {records : List Record}
    {a : Assembler} (ran : runSteps (.start settings) steps = (records, some a)) :
    (a.labels.unresolved =
      (branchesOf (.start settings) [] steps).countP fun e ↦ a.labels.isOpen e.label) ∧
    (∀ l b, a.bind l = .ok b → ∃ n, a.labels.pendingCount l = .ok n ∧
      b.labels.unresolved + n = a.labels.unresolved ∧
      ∀ l' ≠ l, b.labels.pendingCount l' = a.labels.pendingCount l') ∧
    (∀ n, a.code = .error (.unresolved n) ↔ n = a.labels.unresolved ∧ n ≠ 0) ∧
    (a.labels.unresolved = 0 → a.code = .ok a.buffer.bytes.toList) ∧
    (∀ (ε : Type) (allocate : Nat → Except ε Nat) (n : Nat),
      a.function allocate = .error (.build (.unresolved n)) ↔ n = a.labels.unresolved ∧ n ≠ 0) ∧
    (∀ n, a.discard false = .error (.abandoned n) ↔ n = a.labels.unresolved ∧ n ≠ 0) ∧
    (a.discard false = .ok () ↔ a.labels.unresolved = 0) ∧
    a.discard true = .ok () ∧
    ∀ l p, a.labels.position? l = .ok (some p) → a.bind l = .error (.alreadyBound l.index p) := by
  have inv := Tracks.start.script ran
  refine ⟨inv.unresolved_eq, fun l b bound ↦ ⟨_, inv.unresolved_bind bound⟩,
    fun n ↦ Assembler.code_eq_error, Assembler.code_eq_ok, fun ε allocate n ↦ ?_,
    fun n ↦ Assembler.discard_eq_error, Assembler.discard_eq_ok, Assembler.discard_unwinding,
    fun l p bound ↦ Assembler.bind_of_bound bound⟩
  exact Assembler.function_eq_error.trans Assembler.code_eq_error

/-- Two labels; a near branch and a conditional far branch go to the first, one to the second. -/
def openBranches : List Step :=
  [.call (.ok .newLabel), .call (.ok .newLabel), .call (.ok (.branch false ⟨0⟩)),
    .call (.ok (.setFarBranches true)), .scope .ne [.call (.ok (.branch true ⟨0⟩))],
    .call (.ok (.branch false ⟨1⟩))]

/-- Three of them wait, and binding the first label leaves one. -/
theorem three_open_branches : ∃ a, (runSteps (.start (.near .full)) openBranches).2 = some a ∧
    a.code = .error (.unresolved 3) ∧ ∃ b, a.bind ⟨0⟩ = .ok b ∧ b.labels.unresolved = 1 := by
  have facts : (runSteps (.start (.near .full)) openBranches).2.map (fun a ↦
      (a.labels.unresolved, (a.labels.states[0]?.map fun s ↦ s.pending.length),
        (a.bind ⟨0⟩).isOk)) = some (3, some 2, true) := by
    decide +kernel
  obtain ⟨a, ran, facts⟩ := Option.map_eq_some_iff.mp facts
  simp only [Prod.mk.injEq] at facts
  obtain ⟨count, waiting, accepted⟩ := facts
  obtain ⟨-, binds, refused, -⟩ := open_branches_are_counted (Prod.ext rfl ran)
  refine ⟨a, ran, (refused 3).mpr ⟨count.symm, by decide⟩, ?_⟩
  cases bound : a.bind ⟨0⟩ with
  | error m => simp [bound, Except.isOk, Except.toBool] at accepted
  | ok b =>
    obtain ⟨n, pending, left, -⟩ := binds ⟨0⟩ b bound
    obtain ⟨s, state, long⟩ := Option.map_eq_some_iff.mp waiting
    have two : n = 2 := by
      rw [LabelTable.pendingCount, LabelTable.state_eq_ok.mpr state] at pending
      cases pending
      exact long
    exact ⟨b, rfl, by omega⟩

/-- A branch to a label that is not bound. -/
def oneOpenBranch : List Step := [.call (.ok .newLabel), .call (.ok (.branch false ⟨0⟩))]

/-- While a failure unwinds, an assembler with an open branch is given up without another. So it is
not the number of open branches alone that decides whether giving up fails. -/
theorem open_branch_given_up_unwinding :
    ∃ a, (runSteps (.start (.near .full)) oneOpenBranch).2 = some a ∧ a.labels.unresolved = 1 ∧
      a.discard true = .ok () ∧
      ¬ ∀ unwinding, (∃ m, a.discard unwinding = .error m) ↔ a.labels.unresolved ≠ 0 := by
  have facts :
      (runSteps (.start (.near .full)) oneOpenBranch).2.map (·.labels.unresolved) = some 1 := by
    decide +kernel
  obtain ⟨a, ran, one⟩ := Option.map_eq_some_iff.mp facts
  refine ⟨a, ran, one, rfl, fun decides ↦ ?_⟩
  obtain ⟨m, failed⟩ := (decides true).mpr (by rw [one]; decide)
  cases failed

end A32Assembler
