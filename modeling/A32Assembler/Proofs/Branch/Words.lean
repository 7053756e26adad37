import A32Assembler.Assembler
import A32Assembler.Proofs.Decoding.Core
import A32Assembler.Proofs.Machine.Run
import A32Assembler.Proofs.Sequence.Words

/-!
# Words of branches

The words of a branch with a given displacement, open or patched: patching gives exactly the words
of the same branch with another displacement. Running them adds the displacement to the program
counter as a branch of the kind reads it.
-/

namespace A32Assembler

open Word (place flag)

namespace Encoding

/-- A near branch by its field. -/
def nearWord (c : Condition) (link : Bool) (field : BitVec 24) : Word :=
  condition c ||| 0x0a000000 ||| flag 24 link ||| place 0 field

/-- A wide move to `IP` by its constant. -/
def wideWord (c : Condition) (top : Bool) (imm : Halfword) : Word :=
  condition c ||| 0x03000000 ||| flag 22 top ||| place 16 (imm.extractLsb' 12 4) |||
    place 12 (12 : BitVec 4) ||| place 0 (imm.extractLsb' 0 12)

/-- The sum of the program counter and `IP`, to one of them. -/
def addWord (c : Condition) (link : Bool) : Word :=
  condition c ||| flag 25 false ||| place 21 (4 : BitVec 4) ||| flag 20 false |||
    place 16 (15 : BitVec 4) ||| place 12 (if link then 12 else 15 : BitVec 4) |||
    place 0 (12 : BitVec 4)

/-- The branch with link to `IP`. -/
def exchangeWord (c : Condition) : Word :=
  condition c ||| 0x012fff10 ||| flag 5 true ||| place 0 (12 : BitVec 4)

end Encoding

open Encoding

/-- The words of a branch with a given displacement. -/
def branchWords (c : Condition) (kind : BranchKind) (link : Bool) (offset : Word) : List Word :=
  match kind with
  | .near => [nearWord c link (offset.extractLsb' 2 24)]
  | .far =>
    [wideWord c false (offset.extractLsb' 0 16), wideWord c true (offset.extractLsb' 16 16)] ++
      if link then [addWord c true, exchangeWord c] else [addWord c false]

variable {c : Condition} {link : Bool}

/-- The number of words of a branch. -/
def BranchKind.wordCount (kind : BranchKind) (link : Bool) : Nat :=
  match kind with
  | .near => 1
  | .far => if link then 4 else 3

/-- The number of words does not depend on the displacement. -/
@[simp] theorem length_branchWords {kind : BranchKind} {offset : Word} :
    (branchWords c kind link offset).length = kind.wordCount link := by
  cases kind <;> cases link <;> rfl

/-- An open branch has the words of displacement zero. -/
theorem words_openBranch (c : Condition) (kind : BranchKind) (link : Bool) :
    (Assembler.openBranch c kind link).words = .ok (branchWords c kind link 0) := by
  cases kind <;> cases link <;> cases c <;> rfl

/-- A near branch with another field is the near branch of that field. -/
theorem withBranchField_nearWord (field field' : BitVec 24) :
    withBranchField (nearWord c link field) field' = nearWord c link field' := by
  apply BitVec.eq_of_getLsbD_eq
  intro i hi
  have top : (0xff000000 : Word) = place 24 (BitVec.allOnes 8) := rfl
  have fixed : (0x0a000000 : Word) = place 24 (10 : BitVec 8) := rfl
  simp only [withBranchField, nearWord, condition, flag, top, fixed, BitVec.getLsbD_or,
    BitVec.getLsbD_and, Word.getLsbD_place, BitVec.getLsbD_allOnes]
  grind

/-- A wide move with another constant is the wide move of that constant. -/
theorem withWideImmediate_wideWord {top : Bool} (imm imm' : Halfword) :
    withWideImmediate (wideWord c top imm) imm' = wideWord c top imm' := by
  apply BitVec.eq_of_getLsbD_eq
  intro i hi
  have kept : (0xfff0f000 : Word) =
      place 20 (BitVec.allOnes 12) ||| place 12 (BitVec.allOnes 4) := rfl
  have fixed : (0x03000000 : Word) = place 24 (3 : BitVec 8) := rfl
  simp only [withWideImmediate, wideWord, condition, flag, kept, fixed, BitVec.getLsbD_or,
    BitVec.getLsbD_and, Word.getLsbD_place, BitVec.getLsbD_allOnes, BitVec.getLsbD_extractLsb']
  grind

/-- A displacement in whole words and in range is the one that its field stands for. -/
theorem signExtend_field {offset : Word} (range : InBranchRange offset)
    (aligned : offset.extractLsb' 0 2 = 0#2) :
    (offset.extractLsb' 2 24 ++ 0#2).signExtend 32 = offset := by
  have whole : offset.extractLsb' 2 24 ++ 0#2 = offset.extractLsb' 0 26 := by
    rw [← aligned]
    exact BitVec.extractLsb'_append_extractLsb'_eq_extractLsb' rfl
  obtain ⟨low, high⟩ := range
  apply BitVec.eq_of_toInt_eq
  rw [whole, BitVec.toInt_signExtend_of_le (by omega), BitVec.toInt_eq_toNat_cond,
    BitVec.extractLsb'_toNat, Nat.shiftRight_zero]
  rw [BitVec.toInt_eq_toNat_cond] at low high ⊢
  split at low <;> split <;> omega

/-- The displacement of a near branch between whole words is one in whole words. -/
theorem aligned_displacement {p target : Nat} (from_word : p % 4 = 0) (to_word : target % 4 = 0) :
    (BitVec.ofNat 32 target - BitVec.ofNat 32 (p + 8)).extractLsb' 0 2 = 0#2 := by
  apply BitVec.eq_of_toNat_eq
  rw [BitVec.extractLsb'_toNat, BitVec.toNat_sub, BitVec.toNat_ofNat, BitVec.toNat_ofNat,
    BitVec.toNat_ofNat, Nat.shiftRight_zero]
  omega

/-- A wide move to `IP` is decoded from its word. -/
theorem decode_wideWord (top : Bool) (imm : Halfword) :
    decode (wideWord c top imm) = some ⟨c, .core (.moveWide top .ip imm)⟩ := by
  have encoded : (CoreInstruction.moveWide top .ip imm).encode c = .ok (wideWord c top imm) := rfl
  exact Decode.decode_moveWide encoded

/-- The sum of the program counter and `IP` is decoded from its word. -/
theorem decode_addWord :
    decode (addWord c link) =
      some ⟨c, .core (.arithmetic .add false (if link then .ip else .pc) .pc (.register .ip))⟩ := by
  have encoded : (CoreInstruction.arithmetic .add false (if link then .ip else .pc) .pc
      (.register .ip)).encode c = .ok (addWord c link) := by
    cases link <;> rfl
  exact Decode.decode_arithmetic encoded

/-- The branch with link to `IP` is decoded from its word. -/
theorem decode_exchangeWord :
    decode (exchangeWord c) = some ⟨c, .core (.branchExchange true .ip)⟩ := by
  have encoded : (CoreInstruction.branchExchange true .ip).encode c = .ok (exchangeWord c) := rfl
  exact Decode.decode_branchExchange encoded

section Run

open Machine

variable {u : FloatUnit} {m : CodeMemory} {s : State}

/-- A near branch goes where its displacement says. -/
theorem step_nearWord {offset : Word} (range : InBranchRange offset)
    (aligned : offset.extractLsb' 0 2 = 0#2) (holds : c.holds s.flags = true)
    (held : m (s.core .pc) = some (nearWord c link (offset.extractLsb' 2 24))) :
    step u m s = some (s.jump link (s.core .pc + 8 + offset)) := by
  rw [step_of_decode held Decode.decode_branch, signExtend_field range aligned]
  simp [Predicated.execute, holds, Instruction.execute, CoreInstruction.execute]

/-- The wide moves of a far branch load its displacement into `IP`. -/
theorem executes_wideWords (offset : Word) (holds : c.holds s.flags = true) :
    ∃ t, Executes u [wideWord c false (offset.extractLsb' 0 16),
        wideWord c true (offset.extractLsb' 16 16)] s t ∧
      t.core .ip = offset ∧ s.Keeps t [.ip] [] ∧ t.flags = s.flags := by
  have ip_pc : Register.ip ≠ .pc := by decide
  have low : Executes u [wideWord c false (offset.extractLsb' 0 16)] s
      (s.put .ip ((offset.extractLsb' 0 16).setWidth 32)) := by
    apply Executes.take (decode_wideWord _ _) holds
    · simp [Instruction.execute, CoreInstruction.execute, State.unlessPc, ip_pc.symm]
    · simp [State.core_put ip_pc]
  have high (r : State) (holds : c.holds r.flags = true) :
      Executes u [wideWord c true (offset.extractLsb' 16 16)] r
        (r.put .ip (offset.extractLsb' 16 16 ++ (r.core .ip).extractLsb' 0 16)) := by
    apply Executes.take (decode_wideWord _ _) holds
    · simp [Instruction.execute, CoreInstruction.execute, State.unlessPc, ip_pc.symm]
    · simp [State.core_put ip_pc]
  refine ⟨_, low.cons (high _ (by simpa using holds)), ?_, ?_, by simp⟩
  · simp [State.core_put ip_pc, ip_pc, BitVec.extractLsb'_setWidth_of_le, Word.halves]
  · exact (State.keeps_put ip_pc).trans (State.keeps_put ip_pc)

/-- Without link, a far branch adds `IP` to the program counter. -/
theorem step_addWord (holds : c.holds s.flags = true)
    (held : m (s.core .pc) = some (addWord c false)) :
    step u m s = some (s.put .pc (s.core .pc + 8 + s.core .ip)) := by
  rw [step_of_decode held decode_addWord]
  simp [Predicated.execute, holds, Instruction.execute, CoreInstruction.execute, State.settle,
    State.process, ArithmeticOp.opcode, Operand.evaluate,
    State.read_of_ne (show Register.ip ≠ .pc by decide)]

/-- With link, a far branch adds the program counter to `IP` and branches there. -/
theorem run_addWord_link (holds : c.holds s.flags = true)
    (held : m.Holds (s.core .pc) [addWord c true, exchangeWord c]) :
    run u m 2 s = some
      ((s.put .ip (s.core .pc + 8 + s.core .ip)).jump true (s.core .pc + 8 + s.core .ip)) := by
  have ip_pc : Register.ip ≠ .pc := by decide
  have add : step u m s = some (s.put .ip (s.core .pc + 8 + s.core .ip)) := by
    rw [step_of_decode held.head decode_addWord]
    simp [Predicated.execute, holds, Instruction.execute, CoreInstruction.execute, State.settle,
      State.process, ArithmeticOp.opcode, Operand.evaluate, ip_pc, State.read_of_ne ip_pc]
  have there : m ((s.put .ip (s.core .pc + 8 + s.core .ip)).core .pc) = some (exchangeWord c) := by
    simpa [State.core_put ip_pc] using (held.drop 1).head
  have branch := step_of_decode (u := u) there decode_exchangeWord
  refine run_add (k := 1) ((run_one).trans add) ((run_one).trans (branch.trans ?_))
  simp [Predicated.execute, holds, Instruction.execute, CoreInstruction.execute, ip_pc,
    State.read_of_ne ip_pc, State.core_put ip_pc]

/-- A far branch without link adds its displacement to the program counter. -/
theorem run_farWords {offset : Word} (holds : c.holds s.flags = true)
    (held : m.Holds (s.core .pc) (branchWords c .far false offset)) :
    ∃ t, run u m 3 s = some t ∧ t.core .pc = s.core .pc + 16 + offset ∧ s.Keeps t [.ip] [] ∧
      t.flags = s.flags := by
  obtain ⟨s2, loads, in_ip, keeps, flags⟩ := executes_wideWords (u := u) offset holds
  have rest := held.right
  rw [← loads.pc_eq] at rest
  have at_add : s2.core .pc = s.core .pc + 8 := loads.pc_eq
  have last := step_addWord (u := u) (by rwa [flags]) rest.head
  refine ⟨_, run_add (loads.run_eq m held.left) (run_one.trans last), ?_, ?_, by simp [flags]⟩
  · rw [State.core_put_pc, if_pos rfl, at_add, in_ip]
    bv_omega
  · refine keeps.trans ⟨fun q other _ ↦ ?_, by simp, by simp⟩
    rw [State.core_put_pc, if_neg other]

/-- A far branch with link does so too, and leaves the address behind its words in `LR`. -/
theorem run_farWords_link {offset : Word} (holds : c.holds s.flags = true)
    (held : m.Holds (s.core .pc) (branchWords c .far true offset)) :
    ∃ t, run u m 4 s = some t ∧ t.core .pc = s.core .pc + 16 + offset ∧
      t.core .lr = s.core .pc + 16 ∧ s.Keeps t [.lr, .ip] [] ∧ t.flags = s.flags := by
  have ip_pc : Register.ip ≠ .pc := by decide
  have lr_pc : Register.lr ≠ .pc := by decide
  obtain ⟨s2, loads, in_ip, keeps, flags⟩ := executes_wideWords (u := u) offset holds
  have rest := held.right
  rw [← loads.pc_eq] at rest
  have at_add : s2.core .pc = s.core .pc + 8 := loads.pc_eq
  have last := run_addWord_link (u := u) (by rwa [flags]) rest
  refine ⟨_, run_add (loads.run_eq m held.left) last, ?_, ?_, ?_, by simp [flags]⟩
  · rw [State.core_jump, if_pos rfl, at_add, in_ip]
    bv_omega
  · rw [State.core_jump, if_neg lr_pc, if_pos ⟨rfl, rfl⟩, State.core_put ip_pc, if_pos rfl, at_add]
    bv_omega
  · exact ((keeps.trans (State.keeps_put ip_pc)).andThen State.keeps_jump).mono (by decide)
      (List.Subset.refl _)

/-- The core registers that a branch changes besides the program counter. -/
def BranchKind.changed (kind : BranchKind) (link : Bool) : List Register :=
  (if link then [.lr] else []) ++ if kind = .far then [.ip] else []

/-- A branch whose condition holds adds its displacement to the program counter as it reads it. With
link it leaves the address behind its words in `LR`. -/
theorem run_branchWords {kind : BranchKind} {offset : Word}
    (reach : kind = .near → InBranchRange offset ∧ offset.extractLsb' 0 2 = 0#2)
    (holds : c.holds s.flags = true)
    (held : m.Holds (s.core .pc) (branchWords c kind link offset)) :
    ∃ t, run u m (kind.wordCount link) s = some t ∧
      t.core .pc = s.core .pc + BitVec.ofNat 32 kind.bias + offset ∧
      (link = true → t.core .lr = s.core .pc + BitVec.ofNat 32 (4 * kind.wordCount link)) ∧
      s.Keeps t (kind.changed link) [] ∧ t.flags = s.flags := by
  have lr_pc : Register.lr ≠ .pc := by decide
  cases kind with
  | near =>
    obtain ⟨range, aligned⟩ := reach rfl
    have one := step_nearWord (u := u) range aligned holds held.head
    refine ⟨_, run_one.trans one, ?_, ?_, ?_, State.flags_jump⟩
    · simp [State.core_jump, BranchKind.bias]
    · rintro rfl
      simp [State.core_jump, BranchKind.wordCount, lr_pc]
    · exact State.keeps_jump.mono (List.subset_append_left _ _) (List.Subset.refl _)
  | far =>
    cases link with
    | false =>
      obtain ⟨t, ran, pc, keeps, flags⟩ := run_farWords (u := u) holds held
      exact ⟨t, ran, pc, by simp, keeps, flags⟩
    | true =>
      obtain ⟨t, ran, pc, lr, keeps, flags⟩ := run_farWords_link (u := u) holds held
      exact ⟨t, ran, pc, fun _ ↦ lr, keeps, flags⟩

end Run

end A32Assembler
