import A32Assembler.Calculator.Console
import A32Assembler.Proofs.Calculator.Compilation
import A32Assembler.Proofs.Calculator.Log
import A32Assembler.Proofs.Calculator.Need
import A32Assembler.Proofs.Sequence.Sparing
import Mathlib.Data.List.Forall2

/-!
# Allocation of temporaries

An expression is compiled exactly if it does not need more temporaries than there are. At every
point of the compilation the temporaries in use are the first of their list, and no word writes a
register in which the left operand of an enclosing operation waits for its right one.
-/

namespace A32Assembler.Calculator

open Machine Sequence

/-- The words that an action appends. -/
def Action.Appends (features : Features) : Action → List Word → Prop
  | write call, ws => A32Assembler.Appends features [call] ws
  | take _, ws | release _, ws => ws = []

/-- What is to be shown of a point and the words that it appends: left operands wait in `R0` and in
temporaries that are in use, and no word writes a register in which one waits. -/
structure Point.Sound (u : FloatUnit) (features : Features) (x : Point) (ws : List Word) :
    Prop where
  appends : x.action.Appends features ws
  held : x.pending ⊆ .r0 :: temporaries.take x.inUse
  spares : ∀ w ∈ ws, Word.Spares u x.pending w

/-- A register to compute a result in, and those in which left operands wait meanwhile. -/
structure Occupied (pending : List Register) (result : Register) (k : Nat) : Prop where
  result_held : result ∈ .r0 :: temporaries.take k
  held : pending ⊆ .r0 :: temporaries.take k
  apart : result ∉ pending

namespace Occupied

variable {pending : List Register} {result q : Register} {k : Nat}

/-- What is held lies in registers below `IP`. -/
theorem number_held {r : Register} (mem : r ∈ .r0 :: temporaries.take k) : r.number < 12 := by
  have all : ∀ r ∈ Register.r0 :: temporaries, r.number < 12 := by decide
  exact all r (List.cons_subset_cons _ (List.take_subset _ _) mem)

/-- Left operands wait below `IP`. -/
theorem low (occupied : Occupied pending result k) : ∀ r ∈ pending, r.number < 12 :=
  fun _ mem ↦ number_held (occupied.held mem)

/-- The register of a result is free. -/
theorem free (occupied : Occupied pending result k) : Free result k := by
  have distinct : (Register.r0 :: temporaries).Nodup := by decide
  rw [← List.take_append_drop k temporaries, ← List.cons_append, List.nodup_append] at distinct
  refine ⟨number_held occupied.result_held, fun mem ↦ ?_⟩
  exact distinct.2.2 result occupied.result_held result mem rfl

/-- With one more temporary in use, more may wait. -/
theorem held_succ {r : Register} (mem : r ∈ .r0 :: temporaries.take k) :
    r ∈ .r0 :: temporaries.take (k + 1) :=
  List.cons_subset_cons _ (List.take_subset_take_left _ (Nat.le_succ k)) mem

/-- The same registers, with one more temporary in use. -/
theorem succ (occupied : Occupied pending result k) : Occupied pending result (k + 1) :=
  ⟨held_succ occupied.result_held, fun _ mem ↦ held_succ (occupied.held mem), occupied.apart⟩

/-- The temporary taken next is none of those in which anything is held. -/
theorem next_apart (found : temporaries[k]? = some q) : q ∉ .r0 :: temporaries.take k := by
  have others : .r0 ∉ temporaries := by decide
  rw [List.mem_cons, not_or]
  refine ⟨?_, not_mem_take_temporaries found⟩
  rintro rfl
  exact others (List.mem_of_getElem? found)

/-- The temporary taken next. -/
theorem next (occupied : Occupied pending result k) (found : temporaries[k]? = some q) :
    Occupied pending q (k + 1) := by
  refine ⟨?_, occupied.succ.held, fun mem ↦ next_apart found (occupied.held mem)⟩
  rw [take_temporaries_succ found]
  simp

/-- While the right operand is computed in the temporary taken next, the left one waits. -/
theorem right (occupied : Occupied pending result k) (found : temporaries[k]? = some q) :
    Occupied (result :: pending) q (k + 1) := by
  refine ⟨(occupied.next found).result_held, ?_, ?_⟩
  · exact List.cons_subset.mpr ⟨occupied.succ.result_held, occupied.succ.held⟩
  · rw [List.mem_cons, not_or]
    refine ⟨?_, (occupied.next found).apart⟩
    rintro rfl
    exact next_apart found occupied.result_held

end Occupied

section Soundness

variable {u : FloatUnit} {features : Features} {pending : List Register} {result right : Register}
  {k : Nat}

/-- An instruction is written whose word spares what waits. -/
theorem issue_sound {i : Instruction} (held : pending ⊆ .r0 :: temporaries.take k)
    (spares : Spares u pending (Sequence.issue .al [i])) :
    ∃ ws, Point.Sound u features ⟨.write (.issue i), k, pending⟩ ws := by
  obtain ⟨ws, spelled, spared⟩ := spares
  obtain ⟨w, vs, encoded, rest, rfl⟩ := words_issue_cons.mp spelled
  cases words_issue_nil.mp rest
  exact ⟨[w], .issue encoded, held, spared⟩

/-- A request is written whose words spare what waits. -/
theorem expand_sound {r : Request} (held : pending ⊆ .r0 :: temporaries.take k)
    (spares : Spares u pending (r.sequence features .al)) :
    ∃ ws, Point.Sound u features ⟨.write (.expand r), k, pending⟩ ws := by
  obtain ⟨ws, spelled, spared⟩ := spares
  exact ⟨ws, .expand spelled, held, spared⟩

/-- All points of a log are as they should be. -/
def Log.Sound (u : FloatUnit) (features : Features) (l : Log) : Prop :=
  ∀ x ∈ l.points, ∃ ws, x.Sound u features ws

namespace Log.Sound

/-- One log and then another. -/
theorem andThen {l : Log} {next : Nat → Log} (first : l.Sound u features)
    (second : l.exhausted = false → (next l.inUse).Sound u features) :
    (l.andThen next).Sound u features := by
  unfold Log.andThen
  split
  · exact first
  · next completed =>
    exact List.forall_mem_append.mpr ⟨first, second (by simpa using completed)⟩

/-- A log for which one more temporary is taken. -/
theorem taken {next : Register → Nat → Log} (held : pending ⊆ .r0 :: temporaries.take k)
    (h : ∀ r, temporaries[k]? = some r →
      (next r (k + 1)).Sound u features ∧ (next r (k + 1)).Disciplined (k + 1)) :
    (Log.take pending k fun r j ↦ (next r j).andThen (.release pending r)).Sound u features := by
  unfold Log.take
  split
  · next r found =>
    obtain ⟨sound, disciplined⟩ := h r found
    have more : pending ⊆ .r0 :: temporaries.take (k + 1) :=
      fun _ mem ↦ Occupied.held_succ (held mem)
    refine List.forall_mem_cons.mpr ⟨⟨[], rfl, more, by simp⟩, sound.andThen fun completed ↦ ?_⟩
    rw [disciplined.back completed]
    exact List.forall_mem_singleton.mpr ⟨[], rfl, held, by simp⟩
  · exact fun _ mem ↦ absurd mem List.not_mem_nil

end Log.Sound

/-- Combining two operands writes nothing in which another waits. -/
theorem combineLog_sound (op : Operator) (occupied : Occupied pending result k)
    (free : Free right k) : (combineLog pending op result right k).Sound u features := by
  have low := occupied.low
  have into := occupied.free
  have one {x : Point} (sound : ∃ ws, Point.Sound u features x ws) :
      ∀ y ∈ [x], ∃ ws, y.Sound u features ws := List.forall_mem_singleton.mpr sound
  have arithmetic (op : ArithmeticOp) : Spares u pending
      (issueCore .al [.arithmetic op false result result (.register right)]) := by
    obtain ⟨m, field⟩ := Register.exists_code (r := right) (by have := free.low; bv_omega)
    exact .put low occupied.apart into.ne_pc (.arithmetic op into.lt_pc into.lt_pc
      ⟨_, by rw [Operand.encoding, field]; rfl⟩ rfl)
  cases op with
  | add => exact one (issue_sound occupied.held (arithmetic .add))
  | subtract => exact one (issue_sound occupied.held (arithmetic .sub))
  | multiply =>
    exact one (issue_sound occupied.held (.put low occupied.apart into.ne_pc
      (.multiply into.lt_pc into.lt_pc free.lt_pc)))
  | divide =>
    exact one (expand_sound occupied.held (divide_spares low features true into.lt_pc into.lt_pc
      free.lt_pc into.ne_ip into.ne_ip free.ne_ip (by decide) (by decide) occupied.apart))
  | remainder =>
    refine .taken occupied.held fun q found ↦ ⟨?_, .writes _⟩
    have quotient := occupied.next found
    have into_q := quotient.free
    refine List.forall_mem_cons.mpr ⟨expand_sound quotient.held ?_, one ?_⟩
    · exact divide_spares low features true into_q.lt_pc into.lt_pc free.lt_pc into_q.ne_ip
        into.ne_ip free.ne_ip (by decide) (by decide) quotient.apart
    · exact issue_sound quotient.held (.put low occupied.apart into.ne_pc
        (.multiplySubtract into.lt_pc into_q.lt_pc free.lt_pc into.lt_pc))

/-- The code of an expression writes nothing in which a left operand waits. -/
theorem exprLog_sound (e : Expr) (occupied : Occupied pending result k) :
    (exprLog pending result e k).Sound u features := by
  induction e generalizing pending result k with
  | number value =>
    refine List.forall_mem_singleton.mpr (expand_sound occupied.held ?_)
    exact constant_spares occupied.low occupied.free.lt_pc occupied.apart
  | binary left op right ihl ihr =>
    refine (ihl occupied).andThen fun completed ↦ ?_
    rw [(exprLog_disciplined left).back completed]
    refine .taken occupied.held fun q found ↦ ?_
    have disciplined : (exprLog (result :: pending) q right (k + 1)).Disciplined (k + 1) :=
      exprLog_disciplined right
    refine ⟨(ihr (occupied.right found)).andThen fun completed' ↦ ?_,
      disciplined.andThen (combineLog_disciplined op)⟩
    rw [disciplined.back completed']
    exact combineLog_sound op occupied.succ (occupied.next found).free

/-- Points that are as they should be have words. -/
theorem exists_words {xs : List Point} (sound : ∀ x ∈ xs, ∃ ws, x.Sound u features ws) :
    ∃ wss, List.Forall₂ (Point.Sound u features) xs wss := by
  induction xs with
  | nil => exact ⟨[], .nil⟩
  | cons x xs ih =>
    obtain ⟨⟨ws, first⟩, others⟩ := List.forall_mem_cons.mp sound
    obtain ⟨wss, rest⟩ := ih others
    exact ⟨ws :: wss, .cons first rest⟩

/-- The calls of some points append their words. -/
theorem appends_calls {xs : List Point} {wss : List (List Word)}
    (sound : List.Forall₂ (Point.Sound u features) xs wss) :
    Appends features (xs.filterMap (·.action.call?)) wss.flatten := by
  induction sound with
  | nil => exact .nil
  | @cons x ws xs wss first rest ih =>
    obtain ⟨action, inUse, pending⟩ := x
    have appends := first.appends
    cases action with
    | write call => exact Appends.append appends ih
    | take r | release r =>
      cases appends
      exact ih

end Soundness

section Pending

variable {pending : List Register} {result right : Register} {k : Nat} {x : Point}

/-- What is in one log and then another is in one of the two. -/
theorem Log.mem_andThen {l : Log} {next : Nat → Log} (mem : x ∈ (l.andThen next).points) :
    x ∈ l.points ∨ ∃ j, x ∈ (next j).points := by
  unfold andThen at mem
  split at mem
  · exact .inl mem
  · exact (List.mem_append.mp mem).imp_right fun mem ↦ ⟨_, mem⟩

/-- What is in a log that takes a temporary takes it or comes later. -/
theorem Log.mem_take {next : Register → Nat → Log} (mem : x ∈ (take pending k next).points) :
    x.pending = pending ∨ ∃ r j, x ∈ (next r j).points := by
  unfold take at mem
  split at mem
  · obtain rfl | mem := List.mem_cons.mp mem
    · exact .inl rfl
    · exact .inr ⟨_, _, mem⟩
  · cases mem

/-- Nothing waits newly while calls are written. -/
theorem Log.pending_writes {calls : List Call} (mem : x ∈ (writes pending calls k).points) :
    x.pending = pending := by
  obtain ⟨call, -, rfl⟩ := List.mem_map.mp mem
  rfl

/-- Nothing waits newly while a temporary is released. -/
theorem Log.pending_release {r : Register} (mem : x ∈ (release pending r k).points) :
    x.pending = pending := by
  rw [List.mem_singleton.mp mem]

/-- Nothing waits newly while operands are combined. -/
theorem pending_combineLog {op : Operator}
    (mem : x ∈ (combineLog pending op result right k).points) : x.pending = pending := by
  cases op with
  | remainder =>
    obtain same | ⟨q, j, mem⟩ := Log.mem_take mem
    · exact same
    obtain mem | ⟨j, mem⟩ := Log.mem_andThen mem
    · exact Log.pending_writes mem
    · exact Log.pending_release mem
  | add | subtract | multiply | divide => exact Log.pending_writes mem

/-- In the code of an expression, nothing waits newly, or its left operand does. -/
theorem pending_exprLog (e : Expr) (mem : x ∈ (exprLog pending result e k).points) :
    x.pending = pending ∨ result :: pending <:+ x.pending := by
  induction e generalizing pending result k with
  | number value => exact .inl (Log.pending_writes mem)
  | binary left op right ihl ihr =>
    obtain mem | ⟨j, mem⟩ := Log.mem_andThen mem
    · exact ihl mem
    obtain same | ⟨q, j, mem⟩ := Log.mem_take mem
    · exact .inl same
    obtain mem | ⟨j, mem⟩ := Log.mem_andThen mem
    · obtain mem | ⟨j, mem⟩ := Log.mem_andThen mem
      · obtain same | more := ihr mem
        · exact .inr (same ▸ List.suffix_rfl)
        · exact .inr ((List.suffix_cons _ _).trans more)
      · exact .inl (pending_combineLog mem)
    · exact .inl (Log.pending_release mem)

end Pending

/-- The words of a compiled function: those of the points between the push and, unless the
temporaries run out, the pop and the return. -/
theorem compile_eq {u : FloatUnit} {features : Features} {e : Expr} {wss : List (List Word)}
    (sound : List.Forall₂ (Point.Sound u features) (exprLog [] .r0 e 0).points wss) :
    ∃ c, (Compiler.start features).compile e = .ok (decide (e.need ≤ 7), c) ∧
      (e.need ≤ 7 → c.inUse = 0) ∧ c.assembler.buffer.words =
        0xe92d0ff0 :: wss.flatten ++ if e.need ≤ 7 then [0xe8bd0ff0, 0xe12fff1e] else [] := by
  have fits : (emitExpr .r0 e 0).Fits 0 e.need := emitExpr_fits e (Nat.zero_le 7)
  obtain ⟨exhausted_eq, inUse_eq⟩ := fits
  rw [Nat.zero_add] at exhausted_eq inUse_eq
  have push : Appends features [.issue (.core (.pushList savedList))] [0xe92d0ff0] := .issue rfl
  have pop : Appends features [.issue (.core (.popList savedList))] [0xe8bd0ff0] := .issue rfl
  have ret : Appends features [.issue (.core .ret)] [0xe12fff1e] := .issue rfl
  have body : Appends features (emitExpr .r0 e 0).calls wss.flatten := by
    have same : (exprLog [] .r0 e 0).emission = emitExpr .r0 e 0 := emission_exprLog e
    rw [← same]
    exact appends_calls sound
  let tail : List Word := if e.need ≤ 7 then [0xe8bd0ff0, 0xe12fff1e] else []
  have epilogue : Appends features (if (emitExpr .r0 e 0).exhausted then []
      else [.issue (.core (.popList savedList)), .issue (.core .ret)])
      tail := by
    by_cases few : e.need ≤ 7
    · rw [show tail = _ from if_pos few, exhausted_eq, decide_eq_false (by omega),
        if_neg Bool.false_ne_true]
      exact pop.append ret
    · rw [show tail = _ from if_neg few, exhausted_eq, decide_eq_true (by omega), if_pos rfl]
      exact .nil
  have all := ((push.append body).append epilogue) (.start (.near features)) rfl rfl
  have flag : (!(emitExpr .r0 e 0).exhausted) = decide (e.need ≤ 7) := by
    rw [exhausted_eq, ← decide_not, decide_eq_decide, Nat.not_lt]
  refine ⟨⟨(Assembler.start (.near features)).append ([0xe92d0ff0] ++ wss.flatten ++ tail),
    (emitExpr .r0 e 0).inUse⟩, bind_eq_ok.mpr ⟨_, all, ?_⟩, inUse_eq, ?_⟩
  · exact congrArg (fun b ↦ Except.ok (b, _)) flag
  · rw [Assembler.append, CodeBuffer.words_emitAll]
    simp [tail, Assembler.start, CodeBuffer.words_empty]

/-- The allocation of temporaries is exact. An expression is compiled exactly if it needs seven
temporaries at most, and none is in use then; the calculator reports any other. The log of the
compilation writes what the compiler writes: at each of its points, the temporaries held are the
first of their list, as many as are counted, and no word writes a register in which the left operand
of an enclosing operation waits. While a right operand is compiled, `R0` is one of these. -/
theorem temporaries_allocated_exactly (u : FloatUnit) (features : Features) (e : Expr) :
    ∃ c wss, (Compiler.start features).compile e = .ok (decide (e.need ≤ 7), c) ∧
      (e.need ≤ 7 → c.inUse = 0) ∧
      (exprLog [] .r0 e 0).emission = emitExpr .r0 e 0 ∧
      (∀ before x after, (exprLog [] .r0 e 0).points = before ++ x :: after →
        heldAfter [] (before ++ [x]) = temporaries.take x.inUse) ∧
      List.Forall₂ (Point.Sound u features) (exprLog [] .r0 e 0).points wss ∧
      (∀ x ∈ (exprLog [] .r0 e 0).points, x.pending = [] ∨ .r0 ∈ x.pending) ∧
      c.assembler.buffer.words =
        0xe92d0ff0 :: wss.flatten ++ (if e.need ≤ 7 then [0xe8bd0ff0, 0xe12fff1e] else []) ∧
      ∀ showCode text, parse text = .ok e → (evaluate showCode features text).2 =
        if e.need ≤ 7 then .ok e.eval else .error "Out of temporary registers" := by
  have occupied : Occupied [] .r0 0 := ⟨by simp, by simp, by simp⟩
  have fine : (exprLog [] .r0 e 0).Sound u features := exprLog_sound e occupied
  obtain ⟨wss, sound⟩ := exists_words fine
  obtain ⟨c, compiled, inUse, words⟩ := compile_eq sound
  refine ⟨c, wss, compiled, inUse, emission_exprLog e, fun before x after there ↦ ?_, sound,
    fun x mem ↦ ?_, words, fun showCode text parsed ↦ ?_⟩
  · exact (exprLog_disciplined e).stacked.heldAfter_eq there
  · exact (pending_exprLog e mem).imp_right fun more ↦ more.subset List.mem_cons_self
  · simp only [evaluate, parsed, compiled]
    by_cases few : e.need ≤ 7
    · rw [if_pos few, decide_eq_true few]
    · rw [if_neg few, decide_eq_false few]
      rfl

end A32Assembler.Calculator
