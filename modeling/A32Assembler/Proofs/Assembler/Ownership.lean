import A32Assembler.Proofs.Assembler.Calls
import A32Assembler.Proofs.Branch.Layout
import Mathlib.Data.List.Nodup

/-!
# Labels of several assemblers

A label is an index, and an assembler that is handed one checks no more than that it has made as
many labels since it was last cleared. Whatever happens to several assemblers in turn, a label of
another assembler or from before the last clearing is therefore found out exactly if it lies beyond
the labels that there are; otherwise it is taken for the label of the assembler with the same index.
An index has 32 bits. So the labels of one assembler are different only as long as it has made no
more of them than there are indices.
-/

namespace A32Assembler

/-- The label that a call uses. -/
def Call.label? : Call → Option Label
  | branch _ l | bind l | isBound l | labelPosition l => some l
  | _ => none

/-- Whether a call makes a label. -/
def Call.makes : Call → Bool
  | newLabel => true
  | _ => false

/-- Whether a call forgets the labels. -/
def Call.clears : Call → Bool
  | clear => true
  | _ => false

/-- The label that an answer hands out. -/
def Answer.label? : Answer → Option Label
  | label l => some l
  | _ => none

/-- A check that never fails for a foreign label. -/
def Impartial {α : Type} (x : Except Misuse α) : Prop := ∀ i, x ≠ .error (.foreignLabel i)

namespace Impartial

variable {α β : Type} {x : Except Misuse α} {f : α → Except Misuse β} {p target : Nat}
  {b : CodeBuffer} {kind : BranchKind}

/-- A check that succeeds. -/
theorem ok {a : α} : Impartial (.ok a : Except Misuse α) := by
  intro i failed
  cases failed

/-- A check that always fails, for another reason. -/
theorem error {m : Misuse} (other : ∀ i, m ≠ .foreignLabel i) :
    Impartial (.error m : Except Misuse α) := by
  intro i failed
  exact other i (Except.error.inj failed)

/-- Checks one after another. -/
theorem bind (first : Impartial x) (rest : ∀ a, Impartial (f a)) : Impartial (x >>= f) := by
  cases x with
  | ok a => exact rest a
  | error m => exact error fun i same ↦ first i (congrArg _ same)

/-- A requirement with another reason. -/
theorem require {q : Prop} [Decidable q] {m : Misuse} (other : ∀ i, m ≠ .foreignLabel i) :
    Impartial (A32Assembler.require q m) := by
  unfold A32Assembler.require
  split
  · exact ok
  · exact error other

/-- Finding a word. -/
theorem locate : Impartial (b.locate p) := by
  unfold CodeBuffer.locate
  split
  · exact error (by simp)
  · split
    · exact error (by simp)
    · split
      · exact ok
      · exact error (by simp)

/-- Reading a word. -/
theorem load : Impartial (b.load p) := locate.bind fun ⟨_, _, _⟩ ↦ ok

/-- Overwriting a word. -/
theorem store {w : Word} : Impartial (b.store p w) := locate.bind fun ⟨_, _⟩ ↦ ok

/-- Turning a branch. -/
theorem patchBranch : Impartial (patchBranch b p kind target) := by
  have distance : Impartial (displacement p kind target) :=
    (require (by simp)).bind fun _ ↦ (require (by simp)).bind fun _ ↦ ok
  refine distance.bind fun offset ↦ ?_
  cases kind with
  | near =>
    have field : Impartial (Encoding.branchField offset) := (require (by simp)).bind fun _ ↦ ok
    exact (require (by simp)).bind fun _ ↦ load.bind fun _ ↦ field.bind fun _ ↦ store
  | far => exact load.bind fun _ ↦ load.bind fun _ ↦ store.bind fun _ ↦ store

/-- Turning branches one after another. -/
theorem patchAll {ps : List PendingBranch} :
    Impartial (ps.foldlM (fun b p ↦ A32Assembler.patchBranch b p.position p.kind target) b) := by
  induction ps generalizing b with
  | nil => exact ok
  | cons p ps ih =>
    rw [List.foldlM_cons]
    exact patchBranch.bind fun _ ↦ ih

end Impartial

namespace LabelTable

variable {t t' : LabelTable} {l l' : Label} {b b' : CodeBuffer} {position target : Nat}
  {kind : BranchKind}

/-- An index beyond the table is foreign. -/
theorem state_eq_error (beyond : t.size ≤ l.index) :
    t.state l = .error (.foreignLabel l.index) := by
  rw [state, Array.getElem?_eq_none beyond]

/-- An index inside the table has a state. -/
theorem exists_state (inside : l.index < t.size) : ∃ s, t.state l = .ok s :=
  ⟨_, state_eq_ok.mpr (Array.getElem?_eq_getElem inside)⟩

/-- With a label of the table, linking never fails for a foreign one. -/
theorem link_impartial (inside : l.index < t.size) : Impartial (t.link b l position kind) := by
  obtain ⟨s, found⟩ := exists_state inside
  rw [link, found]
  cases s with
  | bound target => exact Impartial.patchBranch.bind fun _ ↦ .ok
  | unbound ps => exact .ok

/-- Neither does binding. -/
theorem bind_impartial (inside : l.index < t.size) : Impartial (t.bind b l target) := by
  obtain ⟨s, found⟩ := exists_state inside
  rw [bind, found]
  cases s with
  | bound previous => exact .error (by simp)
  | unbound ps => exact Impartial.patchAll.bind fun _ ↦ .ok

/-- Asking for a position succeeds. -/
theorem exists_position? (inside : l.index < t.size) : ∃ p, t.position? l = .ok p := by
  obtain ⟨s, found⟩ := exists_state inside
  rw [position?, found]
  cases s with
  | bound p => exact ⟨some p, rfl⟩
  | unbound ps => exact ⟨none, rfl⟩

/-- Linking does not make labels and touches no label but its own. -/
theorem link_frame (h : t.link b l position kind = .ok (t', b')) :
    t'.size = t.size ∧ ∀ l', l' ≠ l → t'.state l' = t.state l' := by
  obtain ⟨target, -, -, rfl⟩ | ⟨ps, -, rfl, -⟩ := link_cases h
  · exact ⟨rfl, fun _ _ ↦ rfl⟩
  · exact ⟨Array.size_setIfInBounds .., fun _ other ↦ state_setState_of_ne other⟩

/-- Binding does not make labels and touches no label but its own. -/
theorem bind_frame (h : t.bind b l target = .ok (t', b')) :
    t'.size = t.size ∧ ∀ l', l' ≠ l → t'.state l' = t.state l' := by
  obtain ⟨ps, -, -, rfl⟩ := bind_cases h
  exact ⟨Array.size_setIfInBounds .., fun _ other ↦ state_setState_of_ne other⟩

end LabelTable

namespace Assembler

variable {a b : Assembler} {call : Call} {l : Label} {answer : Answer} {link : Bool}

/-- A branch links its label once its words are appended. -/
theorem branch_eq_bind :
    a.branch link l = (do
      let buffer := a.buffer.emitAll (branchWords a.condition a.branchKind link 0)
      let (labels, buffer) ← a.labels.link buffer l a.position a.branchKind
      return { a with labels, buffer }) := by
  simp only [branch, issueAll, words_openBranch]
  rfl

/-- With a label beyond the table, a call fails for it. -/
theorem apply_eq_foreign (uses : call.label? = some l) (beyond : a.labels.size ≤ l.index) :
    a.apply call = .error (.misuse (.foreignLabel l.index)) := by
  have unknown := LabelTable.state_eq_error beyond
  cases call with
  | branch link l' =>
    cases uses
    simp only [apply, branch_eq_bind, LabelTable.link, unknown]
    rfl
  | bind l' =>
    cases uses
    simp only [apply, bind, LabelTable.bind, unknown]
    rfl
  | isBound l' | labelPosition l' =>
    cases uses
    simp only [apply, LabelTable.isBound, LabelTable.position?, unknown]
    rfl
  | _ => cases uses

/-- With a label of the table, a call never fails for a foreign one. -/
theorem apply_ne_foreign (uses : call.label? = some l) (inside : l.index < a.labels.size)
    (i : Nat) : a.apply call ≠ .error (.misuse (.foreignLabel i)) := by
  have lifted {α : Type} {x : Except Misuse α} (impartial : Impartial x) :
      liftMisuse x ≠ .error (.misuse (.foreignLabel i)) := by
    intro failed
    cases x with
    | ok _ => cases failed
    | error m => exact impartial i (by cases failed; rfl)
  cases call with
  | branch link l' =>
    cases uses
    have linked : Impartial (a.branch link l) := by
      rw [branch_eq_bind]
      exact (LabelTable.link_impartial inside).bind fun ⟨_, _⟩ ↦ .ok
    exact lifted (linked.bind fun _ ↦ .ok)
  | bind l' =>
    cases uses
    have bound : Impartial (a.bind l) :=
      (LabelTable.bind_impartial inside).bind fun ⟨_, _⟩ ↦ .ok
    exact lifted (bound.bind fun _ ↦ .ok)
  | isBound l' | labelPosition l' =>
    cases uses
    obtain ⟨p, found⟩ := LabelTable.exists_position? inside
    simp only [apply, LabelTable.isBound, found]
    rintro ⟨⟩
  | _ => cases uses

/-- Only a call for a new label hands one out: the one after those that there are, with the index
narrowed. -/
theorem label?_of_apply (done : a.apply call = .ok (answer, b)) :
    answer.label? =
      if call.makes then some ⟨a.labels.size % Label.indexLimit⟩ else none := by
  cases call <;>
    simp only [apply, liftMisuse_eq_ok, liftRefusal_eq_ok, bind_eq_ok, pure_eq_ok, Prod.mk.injEq,
      Except.ok.injEq] at done
  case newLabel =>
    obtain ⟨rfl, -⟩ := done
    rfl
  all_goals
    first
    | obtain ⟨-, -, -, -, rfl, -⟩ := done; rfl
    | obtain ⟨-, -, rfl, -⟩ := done; rfl
    | obtain ⟨rfl, -⟩ := done; rfl

/-- A call for a new label makes one more, clearing leaves none, and no other call changes their
number. -/
theorem size_of_apply (done : a.apply call = .ok (answer, b)) :
    b.labels.size =
      if call.clears then 0 else if call.makes then a.labels.size + 1 else a.labels.size := by
  cases apply_does done with
  | branch done =>
    rw [branch_eq_bind] at done
    obtain ⟨⟨labels, buffer⟩, linked, same⟩ := bind_eq_ok.mp done
    cases same
    exact (LabelTable.link_frame linked).1
  | bind done =>
    obtain ⟨⟨labels, buffer⟩, bound, same⟩ := bind_eq_ok.mp done
    cases same
    exact (LabelTable.bind_frame bound).1
  | newLabel => exact Array.size_push ..
  | @issue call ws issues spelled => cases call <;> first | rfl | cases issues
  | @ask call asks => cases call <;> first | rfl | cases asks
  | word | setFarBranches | setFeatures | clear => rfl

/-- A call that uses a label leaves the others alone. -/
theorem state_of_apply {l' : Label} (uses : call.label? = some l) (other : l' ≠ l)
    (done : a.apply call = .ok (answer, b)) : b.labels.state l' = a.labels.state l' := by
  cases apply_does done with
  | branch done =>
    cases uses
    rw [branch_eq_bind] at done
    obtain ⟨⟨labels, buffer⟩, linked, same⟩ := bind_eq_ok.mp done
    cases same
    exact (LabelTable.link_frame linked).2 l' other
  | bind done =>
    cases uses
    obtain ⟨⟨labels, buffer⟩, bound, same⟩ := bind_eq_ok.mp done
    cases same
    exact (LabelTable.bind_frame bound).2 l' other
  | issue | ask | word | setFarBranches | setFeatures => rfl
  | newLabel | clear => cases uses

end Assembler

/-- What happens to one assembler among several. -/
inductive Move
  | call (c : Call)
  /-- A scope is entered or left. -/
  | condition (c : Condition)

/-- A label with its origin: who made it, and how often that assembler had been cleared. -/
structure Minted where
  label : Label
  maker : Nat
  generation : Nat
deriving DecidableEq

/-- Assemblers told apart by numbers. -/
structure Bench where
  assembler : Nat → Assembler
  /-- How often an assembler was cleared. -/
  generation : Nat → Nat
  /-- All labels that were handed out. -/
  minted : List Minted

namespace Bench

/-- Assemblers without code. -/
def start (settings : Nat → Settings) : Bench := ⟨fun i ↦ .start (settings i), fun _ ↦ 0, []⟩

/-- After a call to an assembler that succeeded. -/
def record (s : Bench) (i : Nat) (c : Call) (answer : Answer) (a : Assembler) : Bench where
  assembler := Function.update s.assembler i a
  generation := if c.clears then Function.update s.generation i (s.generation i + 1)
    else s.generation
  minted := s.minted ++ answer.label?.toList.map (⟨·, i, s.generation i⟩)

/-- After a move. A refusal changes nothing; a misuse ends everything. -/
def move (s : Bench) (i : Nat) : Move → Option Bench
  | .condition c =>
    some { s with assembler := Function.update s.assembler i { s.assembler i with condition := c } }
  | .call c =>
    match (s.assembler i).apply c with
    | .ok (answer, a) => some (s.record i c answer a)
    | .error (.refusal _) => some s
    | .error (.misuse _) => none

/-- After moves one after another, each of one assembler. -/
def run (s : Bench) (moves : List (Nat × Move)) : Option Bench :=
  moves.foldlM (fun s m ↦ s.move m.1 m.2) s

/-- Whether a label was made by an assembler since it was last cleared. -/
def owns (s : Bench) (i : Nat) (m : Minted) : Bool :=
  m.maker == i && m.generation == s.generation i

/-- The labels that an assembler made since it was last cleared, in order. -/
def own (s : Bench) (i : Nat) : List Label := (s.minted.filter (s.owns i)).map (·.label)

/-- The labels that an assembler made since it was last cleared are numbered in order, up to the
width of an index, and the table has a place for each; no label comes from a clearing that is still
to come, and every index is below the limit. -/
structure Numbered (s : Bench) : Prop where
  own_eq : ∀ i, s.own i =
    (List.range (s.assembler i).labels.size).map fun n ↦ ⟨n % Label.indexLimit⟩
  past : ∀ m ∈ s.minted, m.generation ≤ s.generation m.maker
  narrow : ∀ m ∈ s.minted, m.label.index < Label.indexLimit

variable {s t : Bench} {settings : Nat → Settings} {moves : List (Nat × Move)} {i j : Nat}

/-- At the start there are no labels. -/
theorem Numbered.start : (start settings).Numbered :=
  ⟨fun _ ↦ rfl, by simp [Bench.start], by simp [Bench.start]⟩

section Record

variable {c : Call} {answer : Answer} {a : Assembler}

/-- A call to one assembler leaves the others their labels. -/
theorem own_record_of_ne (other : j ≠ i) : (s.record i c answer a).own j = s.own j := by
  have owns : (s.record i c answer a).owns j = s.owns j := by
    cases cleared : c.clears <;> simp [funext_iff, Bench.owns, record, cleared, other]
  simp only [own, owns]
  cases handed : answer.label? <;> simp [record, handed, Bench.owns, other.symm]

/-- After a call other than clearing, an assembler has the label that it hands out besides. -/
theorem own_record (kept : c.clears = false) :
    (s.record i c answer a).own i = s.own i ++ answer.label?.toList := by
  have owns : (s.record i c answer a).owns i = s.owns i := by
    simp [funext_iff, Bench.owns, record, kept]
  simp only [own, owns]
  cases handed : answer.label? <;> simp [record, handed, Bench.owns]

/-- After clearing, an assembler has no labels. -/
theorem own_record_of_clears (past : ∀ m ∈ s.minted, m.generation ≤ s.generation m.maker)
    (cleared : c.clears = true) (none : answer.label? = none) :
    (s.record i c answer a).own i = [] := by
  have minted : (s.record i c answer a).minted = s.minted := by simp [record, none]
  rw [own, minted, List.map_eq_nil_iff, List.filter_eq_nil_iff]
  intro m mem owned
  -- the generation that owns labels now is one that no label has yet
  have before := past m mem
  simp only [owns, record, cleared, if_true, Bool.and_eq_true, beq_iff_eq, Function.update_apply]
    at owned
  obtain ⟨rfl, after⟩ := owned
  omega

/-- A call that succeeds keeps the numbering. -/
theorem Numbered.record (numbered : s.Numbered)
    (done : (s.assembler i).apply c = .ok (answer, a)) : (s.record i c answer a).Numbered where
  own_eq j := by
    by_cases here : j = i
    · subst here
      have handed := Assembler.label?_of_apply done
      have size := Assembler.size_of_apply done
      have now : (s.record j c answer a).assembler j = a := Function.update_self ..
      rw [now, size]
      cases cleared : c.clears with
      | true =>
        have none : answer.label? = none := by
          rw [handed]
          cases c <;> first | rfl | cases cleared
        rw [own_record_of_clears numbered.past cleared none]
        rfl
      | false =>
        rw [own_record cleared, numbered.own_eq, handed]
        cases c.makes <;> simp [List.range_succ]
    · have same : (s.record i c answer a).assembler j = s.assembler j :=
        Function.update_of_ne here ..
      rw [own_record_of_ne here, numbered.own_eq, same]
  past m mem := by
    have later (k : Nat) : s.generation k ≤ (s.record i c answer a).generation k := by
      cases cleared : c.clears with
      | false => simp [Bench.record, cleared]
      | true =>
        simp only [Bench.record, cleared, if_true, Function.update_apply]
        split
        · next here => exact here ▸ Nat.le_succ _
        · exact Nat.le_refl _
    obtain mem | mem := List.mem_append.mp mem
    · exact Nat.le_trans (numbered.past m mem) (later m.maker)
    · obtain ⟨l, -, rfl⟩ := List.mem_map.mp mem
      exact later i
  narrow m mem := by
    obtain mem | mem := List.mem_append.mp mem
    · exact numbered.narrow m mem
    · obtain ⟨l, handed, rfl⟩ := List.mem_map.mp mem
      rw [Assembler.label?_of_apply done, Option.mem_toList] at handed
      split at handed
      · cases handed
        exact Nat.mod_lt _ (by decide)
      · cases handed

end Record

/-- Every move keeps the numbering. -/
theorem Numbered.move {m : Move} (numbered : s.Numbered) (moved : s.move i m = some t) :
    t.Numbered := by
  cases m with
  | condition c =>
    cases moved
    refine ⟨fun j ↦ ?_, numbered.past, numbered.narrow⟩
    have same : (Function.update s.assembler i { s.assembler i with condition := c } j).labels =
        (s.assembler j).labels := by
      rw [Function.update_apply]
      split
      · next here => rw [here]
      · rfl
    exact (numbered.own_eq j).trans (by rw [same])
  | call c =>
    rw [Bench.move] at moved
    split at moved
    · next answer a done =>
      cases moved
      exact numbered.record done
    · cases moved
      exact numbered
    · cases moved

/-- So does every run. -/
theorem Numbered.run (numbered : s.Numbered) (ran : s.run moves = some t) : t.Numbered := by
  induction moves generalizing s with
  | nil =>
    cases ran
    exact numbered
  | cons m moves ih =>
    obtain ⟨next, moved, rest⟩ := Option.bind_eq_some_iff.mp ran
    exact ih (numbered.move moved) rest

/-- An assembler has as many labels of its own as its table has places. -/
theorem Numbered.length_own (numbered : s.Numbered) :
    (s.own i).length = (s.assembler i).labels.size := by
  rw [numbered.own_eq, List.length_map, List.length_range]

/-- The labels of an assembler stand in the order of their indices. -/
theorem Numbered.getElem?_own (numbered : s.Numbered) {l : Label}
    (narrow : l.index < Label.indexLimit) (inside : l.index < (s.own i).length) :
    (s.own i)[l.index]? = some l := by
  rw [numbered.length_own] at inside
  rw [numbered.own_eq, List.getElem?_map, List.getElem?_range inside, Option.map_some,
    Nat.mod_eq_of_lt narrow]

/-- No two labels of an assembler are the same exactly if it has made no more than there are
indices: the next label has the first index again. -/
theorem Numbered.nodup_own_iff (numbered : s.Numbered) :
    (s.own i).Nodup ↔ (s.own i).length ≤ Label.indexLimit := by
  rw [numbered.length_own, numbered.own_eq]
  constructor
  · intro different
    by_contra many
    have first : 0 ∈ List.range (s.assembler i).labels.size := List.mem_range.mpr (by omega)
    have again : Label.indexLimit ∈ List.range (s.assembler i).labels.size :=
      List.mem_range.mpr (by omega)
    have same := List.inj_on_of_nodup_map different first again (by rw [Nat.mod_self, Nat.zero_mod])
    cases same
  · intro few
    refine List.Nodup.map_on (fun m below n below' same ↦ ?_) List.nodup_range
    rw [List.mem_range] at below below'
    have same := congrArg Label.index same
    rwa [Nat.mod_eq_of_lt (by omega), Nat.mod_eq_of_lt (by omega)] at same

/-- A label that an assembler owns lies among its labels. -/
theorem Numbered.index_lt (numbered : s.Numbered) {m : Minted} (mem : m ∈ s.minted)
    (owned : s.owns i m = true) : m.label.index < (s.own i).length := by
  have inside : m.label ∈ s.own i := List.mem_map_of_mem (List.mem_filter.mpr ⟨mem, owned⟩)
  rw [numbered.own_eq] at inside
  obtain ⟨n, small, same⟩ := List.mem_map.mp inside
  rw [numbered.length_own, ← same]
  exact Nat.lt_of_le_of_lt (Nat.mod_le ..) (List.mem_range.mp small)

end Bench

variable {settings : Nat → Settings} {moves : List (Nat × Move)} {s : Bench} {call : Call}
  {l : Label}

/-- Whatever happened to several assemblers, and whoever made a label and when: a call to one of
them that uses the label fails because it does not belong there exactly if the assembler has made
too few labels since it was last cleared. This never happens to its own labels. If it has made
enough, one of them is the same label, and the call leaves all others as they are. Only one is the
same as long as it has made no more labels than there are indices, and no longer. Every label that
was ever handed out has one of these indices. -/
theorem label_judged_by_index (ran : (Bench.start settings).run moves = some s)
    (uses : call.label? = some l) (j : Nat) :
    ((s.assembler j).apply call = .error (.misuse (.foreignLabel l.index)) ↔
      (s.own j).length ≤ l.index) ∧
    (∀ m ∈ s.minted, m.label.index < Label.indexLimit) ∧
    (∀ m ∈ s.minted, s.owns j m = true → m.label.index < (s.own j).length) ∧
    (l.index < Label.indexLimit → l.index < (s.own j).length →
      (s.own j)[l.index]? = some l) ∧
    ((s.own j).Nodup ↔ (s.own j).length ≤ Label.indexLimit) ∧
    ∀ answer b, (s.assembler j).apply call = .ok (answer, b) →
      ∀ l', l' ≠ l → b.labels.state l' = (s.assembler j).labels.state l' := by
  have numbered := Bench.Numbered.start.run ran
  refine ⟨⟨?_, ?_⟩, numbered.narrow, fun _ ↦ numbered.index_lt, numbered.getElem?_own,
    numbered.nodup_own_iff,
    fun _ _ done _ other ↦ Assembler.state_of_apply uses other done⟩
  · intro failed
    by_contra inside
    rw [numbered.length_own, Nat.not_le] at inside
    exact Assembler.apply_ne_foreign uses inside l.index failed
  · intro beyond
    rw [numbered.length_own] at beyond
    exact Assembler.apply_eq_foreign uses beyond

/-- The second label of one assembler, used on another that has made only one. -/
theorem second_label_on_another : ∃ s,
    (Bench.start fun _ ↦ .near .full).run
      [(0, .call .newLabel), (1, .call .newLabel), (1, .call .newLabel)] = some s ∧
    ⟨⟨1⟩, 1, 0⟩ ∈ s.minted ∧
    (s.assembler 0).apply (.bind ⟨1⟩) = .error (.misuse (.foreignLabel 1)) := by
  obtain ⟨s, ran⟩ : ∃ s, (Bench.start fun _ ↦ .near .full).run
      [(0, .call .newLabel), (1, .call .newLabel), (1, .call .newLabel)] = some s := ⟨_, rfl⟩
  have facts : s.minted = [⟨⟨0⟩, 0, 0⟩, ⟨⟨0⟩, 1, 0⟩, ⟨⟨1⟩, 1, 0⟩] ∧ s.own 0 = [⟨0⟩] := by
    cases ran
    exact ⟨rfl, rfl⟩
  have uses : (Call.bind ⟨1⟩).label? = some ⟨1⟩ := rfl
  obtain ⟨judged, -⟩ := label_judged_by_index ran uses 0
  refine ⟨s, ran, by simp [facts], judged.mpr ?_⟩
  rw [facts.2]
  decide

/-- A label from before the last clearing, and the label of another assembler, are accepted where
there is a label with the same index: the old one was bound and is said not to be, and the other
assembler's is bound here. -/
theorem older_and_other_labels_accepted : ∃ s b,
    (Bench.start fun _ ↦ .near .full).run
      [(0, .call .newLabel), (0, .call (.bind ⟨0⟩)), (0, .call .clear), (0, .call .newLabel),
        (1, .call .newLabel)] = some s ∧
    (⟨⟨0⟩, 0, 0⟩ ∈ s.minted ∧ s.owns 0 ⟨⟨0⟩, 0, 0⟩ = false ∧
      (s.assembler 0).apply (.isBound ⟨0⟩) = .ok (.truth false, s.assembler 0)) ∧
    ⟨⟨0⟩, 1, 0⟩ ∈ s.minted ∧ s.owns 0 ⟨⟨0⟩, 1, 0⟩ = false ∧
      (s.assembler 0).apply (.bind ⟨0⟩) = .ok (.nothing, b) := by
  refine ⟨_, _, rfl, ⟨?_, rfl, rfl⟩, ?_, rfl, rfl⟩ <;> decide

end A32Assembler
