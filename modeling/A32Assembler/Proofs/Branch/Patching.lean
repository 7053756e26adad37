import A32Assembler.LabelTable
import A32Assembler.Proofs.Branch.Words

/-!
# Patching

Turning an emitted branch toward a target gives it the displacement of that target, whatever it was
before, and leaves the words outside the branch alone. Branches that lie apart from each other can
therefore be patched one after another.
-/

namespace A32Assembler

namespace CodeBuffer

/-- Words lie one after another from a position on. -/
def HasAt (b : CodeBuffer) (position : Nat) (ws : List Word) : Prop :=
  ∀ (i : Nat) (w : Word), ws[i]? = some w → b.words[position / 4 + i]? = some w

variable {b b' : CodeBuffer} {p q : Nat} {w v : Word} {ws vs : List Word}

private theorem word_after (p : Nat) : (p + 4) / 4 = p / 4 + 1 := by omega

/-- The first word lies at the position itself and the others behind it. -/
theorem hasAt_cons : b.HasAt p (w :: ws) ↔ b.words[p / 4]? = some w ∧ b.HasAt (p + 4) ws := by
  constructor
  · intro h
    refine ⟨h 0 w rfl, fun i v hv ↦ ?_⟩
    rw [word_after, Nat.add_assoc, Nat.add_comm 1]
    exact h (i + 1) v hv
  · rintro ⟨first, rest⟩ i v hv
    cases i with
    | zero =>
      cases hv
      exact first
    | succ i =>
      have there := rest i v hv
      rwa [word_after, Nat.add_assoc, Nat.add_comm 1] at there

/-- What lies in the buffer stays there when words are emitted. -/
theorem HasAt.emitAll (h : b.HasAt p ws) : (b.emitAll vs).HasAt p ws := by
  intro i w hw
  have there := h i w hw
  obtain ⟨inside, -⟩ := List.getElem?_eq_some_iff.mp there
  rwa [words_emitAll, List.getElem?_append_left inside]

/-- Emitted words lie at the former end. -/
theorem hasAt_emitAll : (b.emitAll ws).HasAt b.size ws := by
  intro i w hw
  have long := b.length_words
  rw [words_emitAll, show b.size / 4 = b.words.length by omega,
    List.getElem?_append_right (by omega), Nat.add_sub_cancel_left]
  exact hw

/-- Emitting makes the buffer four bytes longer for each word. -/
theorem size_emitAll : (b.emitAll ws).size = b.size + 4 * ws.length := by
  have before := b.length_words
  have after := (b.emitAll ws).length_words
  rw [words_emitAll, List.length_append] at after
  omega

/-- Positions of words end where words end. -/
theorem size_mod : b.size % 4 = 0 := b.size_mod_four

/-- What is read is the word that lies there. -/
theorem HasAt.load_eq (h : b.HasAt p (w :: ws)) (loaded : b.load p = .ok v) : v = w := by
  have there := (load_eq_ok.mp loaded).2.2
  rw [(hasAt_cons.mp h).1] at there
  exact (Option.some.inj there).symm

/-- A word that is stored takes the place of the one that lay there. -/
theorem HasAt.store (h : b.HasAt p (w :: ws)) (stored : b.store p v = .ok b') :
    b'.HasAt p (v :: ws) := by
  obtain ⟨first, rest⟩ := hasAt_cons.mp h
  obtain ⟨inside, -⟩ := List.getElem?_eq_some_iff.mp first
  refine hasAt_cons.mpr ⟨?_, fun i x hx ↦ ?_⟩
  · rw [words_store stored, List.getElem?_set_self inside]
  · rw [words_store stored, List.getElem?_set_ne (by omega)]
    exact rest i x hx

/-- A word that is stored leaves the words before and after it alone. -/
theorem HasAt.store_apart (h : b.HasAt q ws) (stored : b.store p v = .ok b')
    (apart : p + 4 ≤ q ∨ q + 4 * ws.length ≤ p) : b'.HasAt q ws := by
  intro i w hw
  obtain ⟨inside, -⟩ := List.getElem?_eq_some_iff.mp hw
  rw [words_store stored, List.getElem?_set_ne (by omega)]
  exact h i w hw

end CodeBuffer

open CodeBuffer

variable {b b' : CodeBuffer} {c : Condition} {p q target : Nat} {kind : BranchKind} {link : Bool}
  {offset old : Word} {ws : List Word}

/-- The displacement is taken from where the program counter is read, modulo the size of a word. -/
theorem displacement_eq_ok (h : displacement p kind target = .ok offset) :
    offset = BitVec.ofNat 32 target - BitVec.ofNat 32 (p + kind.bias) := by
  simp only [displacement, bind_eq_ok, pure_eq_ok] at h
  obtain ⟨-, -, -, -, rfl⟩ := h
  rfl

private theorem hasAt_patchNear {ws : List Word}
    (h : b.HasAt p (Encoding.nearWord c link (old.extractLsb' 2 24) :: ws))
    (patched : patchNear b p target offset = .ok b') :
    Encoding.InBranchRange offset ∧
      b'.HasAt p (Encoding.nearWord c link (offset.extractLsb' 2 24) :: ws) := by
  simp only [patchNear, Encoding.branchField, bind_eq_ok, pure_eq_ok] at patched
  obtain ⟨⟨⟩, range, w, loaded, field, ⟨⟨⟩, -, rfl⟩, stored⟩ := patched
  refine ⟨require_eq_ok.mp range, ?_⟩
  rw [h.load_eq loaded, withBranchField_nearWord] at stored
  exact h.store stored

private theorem hasAt_patchFar {ws : List Word}
    (h : b.HasAt p (Encoding.wideWord c false (old.extractLsb' 0 16) ::
      Encoding.wideWord c true (old.extractLsb' 16 16) :: ws))
    (patched : patchFar b p offset = .ok b') :
    b'.HasAt p (Encoding.wideWord c false (offset.extractLsb' 0 16) ::
      Encoding.wideWord c true (offset.extractLsb' 16 16) :: ws) := by
  simp only [patchFar, bind_eq_ok] at patched
  obtain ⟨low, loaded, high, loaded', b1, stored, stored'⟩ := patched
  rw [h.load_eq loaded, withWideImmediate_wideWord] at stored
  rw [(hasAt_cons.mp h).2.load_eq loaded', withWideImmediate_wideWord] at stored'
  obtain ⟨first, rest⟩ := hasAt_cons.mp (h.store stored)
  have first' : b1.HasAt p [Encoding.wideWord c false (offset.extractLsb' 0 16)] :=
    hasAt_cons.mpr ⟨first, fun i v none ↦ by simp at none⟩
  exact hasAt_cons.mpr
    ⟨(hasAt_cons.mp (first'.store_apart stored' (.inr (by simp)))).1, rest.store stored'⟩

/-- A patched branch has the displacement of its target. A near branch reaches it. -/
theorem hasAt_patchBranch (h : b.HasAt p (branchWords c kind link old))
    (patched : patchBranch b p kind target = .ok b') :
    ∃ offset, offset = BitVec.ofNat 32 target - BitVec.ofNat 32 (p + kind.bias) ∧
      (kind = .near → Encoding.InBranchRange offset) ∧
      b'.HasAt p (branchWords c kind link offset) := by
  obtain ⟨offset, distance, patched⟩ := bind_eq_ok.mp patched
  refine ⟨offset, displacement_eq_ok distance, ?_⟩
  cases kind with
  | near =>
    obtain ⟨range, there⟩ := hasAt_patchNear h patched
    exact ⟨fun _ ↦ range, there⟩
  | far =>
    refine ⟨fun near ↦ ?_, hasAt_patchFar h patched⟩
    cases near

/-- Patching a branch leaves the words before and after it alone. -/
theorem CodeBuffer.HasAt.patchBranch_apart (h : b.HasAt q ws)
    (patched : patchBranch b p kind target = .ok b')
    (apart : p + 4 * kind.wordCount link ≤ q ∨ q + 4 * ws.length ≤ p) : b'.HasAt q ws := by
  obtain ⟨offset, -, patched⟩ := bind_eq_ok.mp patched
  cases kind with
  | near =>
    simp only [patchNear, bind_eq_ok] at patched
    obtain ⟨⟨⟩, -, w, -, field, -, stored⟩ := patched
    exact h.store_apart stored (by simpa [BranchKind.wordCount] using apart)
  | far =>
    simp only [patchFar, bind_eq_ok] at patched
    obtain ⟨low, -, high, -, b1, stored, stored'⟩ := patched
    have long : 3 ≤ BranchKind.far.wordCount link := by cases link <;> decide
    exact (h.store_apart stored (by omega)).store_apart stored' (by omega)

/-- Patching keeps the size. -/
theorem size_patchBranch (patched : patchBranch b p kind target = .ok b') : b'.size = b.size := by
  obtain ⟨offset, -, patched⟩ := bind_eq_ok.mp patched
  cases kind with
  | near =>
    simp only [patchNear, bind_eq_ok] at patched
    obtain ⟨⟨⟩, -, w, -, field, -, stored⟩ := patched
    exact size_store stored
  | far =>
    simp only [patchFar, bind_eq_ok] at patched
    obtain ⟨low, -, high, -, b1, stored, stored'⟩ := patched
    rw [size_store stored', size_store stored]

/-- A branch as it was emitted. -/
structure EmittedBranch where
  position : Nat
  kind : BranchKind
  link : Bool
  condition : Condition
  label : Label
deriving DecidableEq

namespace EmittedBranch

/-- Its words, with a given displacement. -/
def words (e : EmittedBranch) (offset : Word) : List Word :=
  branchWords e.condition e.kind e.link offset

/-- The number of its words. -/
def wordCount (e : EmittedBranch) : Nat := e.kind.wordCount e.link

/-- The entry under which it waits for its label. -/
def pending (e : EmittedBranch) : PendingBranch := ⟨e.position, e.kind⟩

/-- Where it ends. -/
def stop (e : EmittedBranch) : Nat := e.position + 4 * e.wordCount

/-- Two branches that have no word in common. -/
def Apart (d e : EmittedBranch) : Prop := d.stop ≤ e.position ∨ e.stop ≤ d.position

/-- In the buffer the branch has the displacement of a target. -/
def AimedAt (e : EmittedBranch) (b : CodeBuffer) (target : Nat) : Prop :=
  ∃ offset, offset = BitVec.ofNat 32 target - BitVec.ofNat 32 (e.position + e.kind.bias) ∧
    (e.kind = .near → Encoding.InBranchRange offset) ∧ b.HasAt e.position (e.words offset)

variable {d e : EmittedBranch} {es : List EmittedBranch}

/-- A branch has the words of its kind, whatever its displacement. -/
theorem length_words : (e.words offset).length = e.wordCount := length_branchWords

/-- Being apart does not depend on the order of the two branches. -/
theorem Apart.symm (h : d.Apart e) : e.Apart d := Or.symm h

/-- Words emitted behind a branch do not turn it. -/
theorem AimedAt.emitAll (h : e.AimedAt b target) : e.AimedAt (b.emitAll ws) target := by
  obtain ⟨offset, distance, range, there⟩ := h
  exact ⟨offset, distance, range, there.emitAll⟩

private theorem words_apart (apart : d.Apart e) (there : b.HasAt d.position (d.words old))
    {target : Nat} (patched : patchBranch b e.position e.kind target = .ok b') :
    b'.HasAt d.position (d.words old) :=
  there.patchBranch_apart patched (by rw [length_words]; exact apart.symm)

/-- Patching branches one after another leaves a branch apart from all of them alone. -/
theorem words_patchAll (apart : ∀ e ∈ es, d.Apart e) (there : b.HasAt d.position (d.words old))
    (patched : (es.map pending).foldlM (fun b p ↦ patchBranch b p.position p.kind target) b =
      .ok b') : b'.HasAt d.position (d.words old) := by
  induction es generalizing b with
  | nil =>
    cases patched
    exact there
  | cons e es ih =>
    rw [List.map_cons, List.foldlM_cons, bind_eq_ok] at patched
    obtain ⟨b1, first, rest⟩ := patched
    have there1 := words_apart (apart e List.mem_cons_self) there first
    exact ih (fun e' mem ↦ apart e' (List.mem_cons_of_mem e mem)) there1 rest

/-- Patching branches one after another turns each of them toward the target. -/
theorem aimedAt_patchAll (apart : es.Pairwise Apart)
    (there : ∀ e ∈ es, ∃ old, b.HasAt e.position (e.words old))
    (patched : (es.map pending).foldlM (fun b p ↦ patchBranch b p.position p.kind target) b =
      .ok b') : ∀ e ∈ es, e.AimedAt b' target := by
  induction es generalizing b with
  | nil => simp
  | cons e es ih =>
    obtain ⟨apart_e, apart⟩ := List.pairwise_cons.mp apart
    rw [List.map_cons, List.foldlM_cons, bind_eq_ok] at patched
    obtain ⟨b1, first, rest⟩ := patched
    obtain ⟨old, there_e⟩ := there e List.mem_cons_self
    obtain ⟨offset, distance, range, there_e⟩ := hasAt_patchBranch there_e first
    -- What this patch does to the others does not matter: they are patched next.
    have there1 : ∀ e' ∈ es, ∃ old, b1.HasAt e'.position (e'.words old) := by
      intro e' mem
      obtain ⟨old', there'⟩ := there e' (List.mem_cons_of_mem e mem)
      exact ⟨old', words_apart (apart_e e' mem).symm there' first⟩
    intro e' mem
    obtain rfl | mem := List.mem_cons.mp mem
    · exact ⟨offset, distance, range, words_patchAll apart_e there_e rest⟩
    · exact ih apart there1 rest e' mem

/-- Patching branches one after another keeps the size. -/
theorem size_patchAll
    (patched : (es.map pending).foldlM (fun b p ↦ patchBranch b p.position p.kind target) b =
      .ok b') : b'.size = b.size := by
  induction es generalizing b with
  | nil =>
    cases patched
    rfl
  | cons e es ih =>
    rw [List.map_cons, List.foldlM_cons, bind_eq_ok] at patched
    obtain ⟨b1, first, rest⟩ := patched
    rw [ih rest, size_patchBranch first]

end EmittedBranch

end A32Assembler
