import A32Assembler.Proofs.Branch.History

/-!
# What branches change

A branch appends its words behind the code, whether its label is bound or not. Binding a label keeps
the length of the code and changes the fields of displacements only, in the branches that waited for
this label.
-/

namespace A32Assembler

open EmittedBranch

/-- The bits of word `k` of a branch that hold its displacement: the 24 bits of a near branch, the
constants of the two wide moves of a far branch. -/
def BranchKind.field : BranchKind → Nat → Word
  | near, 0 => 0x00ffffff
  | far, 0 | far, 1 => 0x000f0fff
  | _, _ => 0

namespace Encoding

variable {c : Condition} {link top : Bool}

/-- Outside its field a near branch does not depend on its displacement. -/
theorem nearWord_frame (field : BitVec 24) :
    nearWord c link field &&& ~~~0x00ffffff = nearWord c link 0 := by
  have kept : withBranchField (nearWord c link field) 0 = nearWord c link 0 :=
    withBranchField_nearWord field 0
  have mask : (~~~0x00ffffff : Word) = 0xff000000 := rfl
  have none : Word.place 0 (0 : BitVec 24) = 0#32 := rfl
  rw [withBranchField, none, BitVec.or_zero] at kept
  rw [mask, kept]

/-- Outside its constant a wide move does not depend on its displacement. -/
theorem wideWord_frame (imm : Halfword) :
    wideWord c top imm &&& ~~~0x000f0fff = wideWord c top 0 := by
  have kept : withWideImmediate (wideWord c top imm) 0 = wideWord c top 0 :=
    withWideImmediate_wideWord imm 0
  have mask : (~~~0x000f0fff : Word) = 0xfff0f000 := rfl
  have high : Word.place 16 ((0 : Halfword).extractLsb' 12 4) = 0#32 := rfl
  have low : Word.place 0 ((0 : Halfword).extractLsb' 0 12) = 0#32 := rfl
  rw [withWideImmediate, high, low, BitVec.or_zero, BitVec.or_zero] at kept
  rw [mask, kept]

end Encoding

/-- The words of a branch with two displacements differ in its fields only. -/
theorem branchWords_frame {c : Condition} {kind : BranchKind} {link : Bool} {old new : Word}
    {k : Nat} {v w : Word} (before : (branchWords c kind link old)[k]? = some v)
    (after : (branchWords c kind link new)[k]? = some w) :
    v &&& ~~~kind.field k = w &&& ~~~kind.field k := by
  cases kind with
  | near =>
    cases k with
    | zero =>
      simp only [branchWords, List.getElem?_cons_zero, Option.some.injEq] at before after
      rw [← before, ← after, BranchKind.field, Encoding.nearWord_frame, Encoding.nearWord_frame]
    | succ k => simp [branchWords] at before
  | far =>
    simp only [branchWords, List.cons_append, List.nil_append] at before after
    match k with
    | 0 | 1 =>
      simp only [List.getElem?_cons_zero, List.getElem?_cons_succ, Option.some.injEq]
        at before after
      rw [← before, ← after, BranchKind.field, Encoding.wideWord_frame, Encoding.wideWord_frame]
    | k + 2 =>
      -- the words behind the wide moves do not depend on the displacement
      simp only [List.getElem?_cons_succ] at before after
      rw [Option.some.inj (before.symm.trans after)]

namespace CodeBuffer

variable {b b' : CodeBuffer} {p q target : Nat} {kind : BranchKind} {ws vs : List Word}

/-- A buffer that holds words from its start and others from their end on, and nothing more, spells
these words. -/
theorem words_eq_append (low : b.HasAt 0 vs) (high : b.HasAt (4 * vs.length) ws)
    (long : b.words.length = vs.length + ws.length) : b.words = vs ++ ws := by
  apply List.ext_getElem?
  intro i
  by_cases inside : i < vs.length
  · rw [List.getElem?_append_left inside, List.getElem?_eq_getElem inside]
    simpa using low i _ (List.getElem?_eq_getElem inside)
  · have within : vs.length ≤ i := Nat.le_of_not_lt inside
    rw [List.getElem?_append_right within]
    cases found : ws[i - vs.length]? with
    | none =>
      have short := List.getElem?_eq_none_iff.mp found
      exact List.getElem?_eq_none_iff.mpr (by omega)
    | some w =>
      have there := high (i - vs.length) w found
      rwa [show 4 * vs.length / 4 + (i - vs.length) = i by omega] at there

/-- Patching a branch at the end of the code changes its words only. -/
theorem words_patchBranch_last {c : Condition} {link : Bool} {old : Word}
    (spelled : b.words = vs ++ branchWords c kind link old)
    (patched : patchBranch b (4 * vs.length) kind target = .ok b') :
    ∃ offset, offset = BitVec.ofNat 32 target - BitVec.ofNat 32 (4 * vs.length + kind.bias) ∧
      (kind = .near → Encoding.InBranchRange offset) ∧
      b'.words = vs ++ branchWords c kind link offset := by
  have front : b.HasAt 0 vs := by
    intro i w hw
    obtain ⟨inside, -⟩ := List.getElem?_eq_some_iff.mp hw
    rw [Nat.zero_div, Nat.zero_add, spelled, List.getElem?_append_left inside, hw]
  have back : b.HasAt (4 * vs.length) (branchWords c kind link old) := by
    intro i w hw
    rw [show 4 * vs.length / 4 + i = vs.length + i by omega, spelled,
      List.getElem?_append_right (Nat.le_add_right _ _), Nat.add_sub_cancel_left, hw]
  obtain ⟨offset, distance, range, there⟩ := hasAt_patchBranch back patched
  have before := b.length_words
  have after := b'.length_words
  rw [size_patchBranch patched, ← before, spelled, List.length_append] at after
  have outside : 4 * vs.length + 4 * kind.wordCount link ≤ 0 ∨ 0 + 4 * vs.length ≤ 4 * vs.length :=
    .inr (by omega)
  refine ⟨offset, distance, range, words_eq_append ?_ there ?_⟩
  · exact front.patchBranch_apart patched outside
  · simp only [length_branchWords] at after ⊢
    omega

/-- Patching branches one after another leaves words apart from all of them alone. -/
theorem HasAt.patchAll_apart {es : List EmittedBranch} (there : b.HasAt q ws)
    (apart : ∀ e ∈ es, e.stop ≤ q ∨ q + 4 * ws.length ≤ e.position)
    (patched : (es.map pending).foldlM (fun b p ↦ patchBranch b p.position p.kind target) b =
      .ok b') : b'.HasAt q ws := by
  induction es generalizing b with
  | nil =>
    cases patched
    exact there
  | cons e es ih =>
    rw [List.map_cons, List.foldlM_cons, bind_eq_ok] at patched
    obtain ⟨b1, first, rest⟩ := patched
    have there1 := there.patchBranch_apart first (apart e List.mem_cons_self)
    exact ih there1 (fun e' mem ↦ apart e' (List.mem_cons_of_mem e mem)) rest

end CodeBuffer

/-- Word `i` of the code is a word of the branch; it keeps what is not displacement. -/
def EmittedBranch.Turns (e : EmittedBranch) (i : Nat) (v w : Word) : Prop :=
  ∃ k old new, i = e.position / 4 + k ∧ (e.words old)[k]? = some v ∧ (e.words new)[k]? = some w ∧
    v &&& ~~~e.kind.field k = w &&& ~~~e.kind.field k

/-- Every word of a branch that lies in two buffers with some displacement is turned from one to the
other. -/
theorem turns_of_hasAt {b b' : CodeBuffer} {e : EmittedBranch} {old new v w : Word} {i : Nat}
    (there : b.HasAt e.position (e.words old)) (there' : b'.HasAt e.position (e.words new))
    (low : e.position / 4 ≤ i) (high : i < e.position / 4 + e.wordCount)
    (before : b.words[i]? = some v) (after : b'.words[i]? = some w) : e.Turns i v w := by
  have index : e.position / 4 + (i - e.position / 4) = i := by omega
  have word (offset : Word) : ∃ x, (e.words offset)[i - e.position / 4]? = some x :=
    ⟨_, List.getElem?_eq_getElem (by rw [length_words]; omega)⟩
  obtain ⟨x, hx⟩ := word old
  obtain ⟨y, hy⟩ := word new
  have same_x := there _ x hx
  have same_y := there' _ y hy
  rw [index] at same_x same_y
  cases before.symm.trans same_x
  cases after.symm.trans same_y
  exact ⟨_, old, new, index.symm, hx, hy, branchWords_frame hx hy⟩

namespace Assembler

variable {a b : Assembler} {link : Bool} {l : Label}

/-- A branch appends its words, with the displacement of its label if that is bound. -/
theorem words_branch (done : a.branch link l = .ok b) :
    ∃ offset, b.buffer.words = a.buffer.words ++ branchWords a.condition a.branchKind link offset ∧
      ∀ target, a.labels.position? l = .ok (some target) →
        offset = BitVec.ofNat 32 target - BitVec.ofNat 32 (a.position + a.branchKind.bias) ∧
        (a.branchKind = .near → Encoding.InBranchRange offset) := by
  simp only [Assembler.branch, Assembler.issueAll, bind_eq_ok, pure_eq_ok] at done
  obtain ⟨b1, ⟨ws, words, rfl⟩, ⟨labels, buffer⟩, linked, rfl⟩ := done
  rw [words_openBranch] at words
  cases words
  have spelled := a.buffer.words_emitAll (branchWords a.condition a.branchKind link 0)
  obtain ⟨target, found, patched, rfl⟩ | ⟨ps, found, rfl, rfl⟩ := LabelTable.link_cases linked
  · rw [position, ← a.buffer.length_words] at patched
    obtain ⟨offset, distance, range, spelled⟩ :=
      CodeBuffer.words_patchBranch_last spelled patched
    refine ⟨offset, spelled, fun target' bound ↦ ?_⟩
    cases (LabelTable.position?_eq_ok.mp bound).symm.trans found
    rw [position, ← a.buffer.length_words]
    exact ⟨distance, range⟩
  · refine ⟨0, spelled, fun target bound ↦ ?_⟩
    cases (LabelTable.position?_eq_ok.mp bound).symm.trans found

/-- Binding turns branches that have waited for the label and changes nothing else. -/
theorem words_bind {h : List EmittedBranch} (inv : Tracks a h) (bound : a.bind l = .ok b) :
    b.buffer.size = a.buffer.size ∧
    ∀ (i : Nat) (v w : Word), a.buffer.words[i]? = some v → b.buffer.words[i]? = some w → v = w ∨
      ∃ e ∈ h, e.label = l ∧ e.Turns i v w := by
  simp only [Assembler.bind, bind_eq_ok, pure_eq_ok] at bound
  obtain ⟨⟨labels, buffer⟩, bound, rfl⟩ := bound
  obtain ⟨ps, found, patched, rfl⟩ := LabelTable.bind_cases bound
  rw [inv.waiting l ps found] at patched
  refine ⟨size_patchAll patched, fun i v w before after ↦ ?_⟩
  have part : (h.filter fun e ↦ e.label = l).Sublist h := List.filter_sublist
  by_cases apart : ∀ e ∈ h.filter (fun e ↦ e.label = l), e.stop ≤ 4 * i ∨ 4 * i + 4 ≤ e.position
  · left
    have alone : a.buffer.HasAt (4 * i) [v] :=
      CodeBuffer.hasAt_cons.mpr ⟨by simpa using before, fun j x hx ↦ by simp at hx⟩
    have kept := (CodeBuffer.hasAt_cons.mp (alone.patchAll_apart apart patched)).1
    rw [Nat.mul_div_cancel_left i (by omega), after] at kept
    exact (Option.some.inj kept).symm
  · right
    simp only [not_forall, not_or, Nat.not_le] at apart
    obtain ⟨e, mem, high, low⟩ := apart
    obtain ⟨mem_h, label⟩ := List.mem_filter.mp mem
    obtain ⟨old, there⟩ := inv.laid.there e mem_h
    obtain ⟨new, -, -, there'⟩ := inv.laid.aimedAt_of_mem part patched e mem
    have aligned := inv.laid.aligned e mem_h
    rw [EmittedBranch.stop] at high
    exact ⟨e, mem_h, by simpa using label,
      turns_of_hasAt there there' (by omega) (by omega) before after⟩

end Assembler

end A32Assembler
