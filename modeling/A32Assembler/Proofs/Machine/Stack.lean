import A32Assembler.Proofs.Decoding.Core
import A32Assembler.Proofs.Machine.Run

/-!
# Saving registers on the stack

A list of registers is pushed into the block below the stack pointer and popped from the block at
it. Popping what was pushed gives every register of the list its value back.
-/

namespace A32Assembler

namespace Machine

variable {s : State} {list : Halfword} {m : Memory} {q : Register}

/-- A register list names at most sixteen registers. -/
theorem length_listed (list : Halfword) : (listed list).length ≤ 16 := by
  rw [listed, List.length_map]
  exact Nat.le_trans (List.length_filter_le _ _) (by simp)

/-- Values written to their registers one after another. -/
theorem foldl_write (rs : List Register) (f : Register → Word) (s : State) :
    let t := (rs.zip (rs.map f)).foldl (fun t (r, x) ↦ t.write r x) s
    (∀ q, t.core q = if q ∈ rs then f q else s.core q) ∧ t.flags = s.flags ∧ t.double = s.double ∧
      t.memory = s.memory := by
  induction rs generalizing s with
  | nil => simp
  | cons r rs ih =>
    obtain ⟨core, flags, double, memory⟩ := ih (s.write r (f r))
    refine ⟨fun q ↦ ?_, flags, double, memory⟩
    rw [List.map_cons, List.zip_cons_cons, List.foldl_cons, core q, State.core_write]
    by_cases same : q = r <;> simp [same]

end Machine

open Machine

/-- The words that a list of registers takes on the stack. -/
def stackSize (list : Halfword) : Word := BitVec.ofNat 32 (4 * (listed list).length)

variable {s : State} {list : Halfword} {m : Memory}

private theorem mod_four {x : Word} : x % 4 = 0 ↔ x.toNat % 4 = 0 := by
  rw [← BitVec.toNat_inj]
  simp

/-- Blocks keep the stack in whole words. -/
theorem sub_stackSize_mod (list : Halfword) {x : Word} (aligned : x % 4 = 0) :
    (x - stackSize list) % 4 = 0 := by
  have few := length_listed list
  rw [mod_four] at aligned ⊢
  rw [stackSize, BitVec.toNat_sub, BitVec.toNat_ofNat]
  omega

private theorem block_accepted {start : Word} (no_sp : .sp ∉ listed list)
    (aligned : start % 4 = 0) :
    ¬ (Register.sp = .pc ∨ start % 4 ≠ 0 ∨ True ∧ .sp ∈ listed list) := by
  rintro (same | odd | ⟨-, mem⟩)
  · exact absurd same (by decide)
  · exact odd aligned
  · exact no_sp mem

/-- Pushing writes the registers into the block below the stack pointer and moves the stack pointer
there. -/
theorem CoreInstruction.execute_pushList (no_sp : .sp ∉ listed list)
    (aligned : s.core .sp % 4 = 0)
    (written : s.memory.writeBlock (s.core .sp - stackSize list) ((listed list).map s.read) =
      some m) :
    (pushList list).execute s =
      some ({ s.write .sp (s.core .sp - stackSize list) with memory := m }.advance) := by
  have accepted := block_accepted no_sp (sub_stackSize_mod list aligned)
  simp only [pushList, execute, Machine.transferBlock, blockStart, BlockMode.pushing]
  rw [← stackSize, if_neg accepted, written]
  rfl

/-- Popping reads the registers from the block at the stack pointer and moves the stack pointer
behind it. -/
theorem CoreInstruction.execute_popList (no_sp : .sp ∉ listed list)
    (aligned : s.core .sp % 4 = 0) {xs : List Word}
    (found : s.memory.readBlock (s.core .sp) (listed list).length = some xs) :
    (popList list).execute s =
      some (((listed list).zip xs).foldl (fun t (r, x) ↦ t.write r x)
        (s.write .sp (s.core .sp + stackSize list)).advance) := by
  simp only [popList, execute, Machine.transferBlock, blockStart, BlockMode.popping]
  rw [← stackSize, if_neg (block_accepted no_sp aligned)]
  simp only [if_true, found]
  rfl

namespace Machine

/-- The registers of a list as they are in `s` lie in the block below its stack pointer, where the
stack pointer of `t` is. Otherwise `t` is like `s`. -/
structure Saved (list : Halfword) (s t : State) : Prop where
  sp : t.core .sp = s.core .sp - stackSize list
  core : ∀ q, q ≠ .pc → q ≠ .sp → t.core q = s.core q
  block : t.memory.readBlock (s.core .sp - stackSize list) (listed list).length =
    some ((listed list).map s.read)
  memory : ∀ a, ¬ Memory.Range (s.core .sp - stackSize list) (4 * (listed list).length) a →
    t.memory a = s.memory a

variable {u : FloatUnit} {w : Word} {f : Register → Word}

/-- A push saves its registers if the block below the stack pointer can be accessed. -/
theorem executes_pushList (encoded : (CoreInstruction.pushList list).encode .al = .ok w)
    (no_sp : .sp ∉ listed list) (aligned : s.core .sp % 4 = 0)
    (room : s.memory.Accessible (s.core .sp - stackSize list) (4 * (listed list).length)) :
    ∃ t, Executes u [w] s t ∧ Saved list s t := by
  have few := length_listed list
  have long : ((listed list).map s.read).length = (listed list).length := List.length_map _
  have fits : 4 * ((listed list).map s.read).length ≤ 2 ^ 32 := by omega
  obtain ⟨m, written⟩ := Memory.exists_writeBlock (by rwa [long]) fits
  have sp_pc : Register.sp ≠ .pc := by decide
  refine ⟨_, .take (Decode.decode_transferBlock encoded) (Condition.holds_al _)
    (CoreInstruction.execute_pushList no_sp aligned written) (by simp [State.advance, sp_pc.symm]),
    by simp [State.advance, sp_pc], ?_, ?_, ?_⟩
  · intro q other other_sp
    simp [State.advance, other, other_sp]
  · have back := Memory.readBlock_writeBlock written fits
    rwa [long] at back
  · intro a outside
    rw [← long] at outside
    exact Memory.writeBlock_frame written fits outside

/-- A pop gives its registers the values that lie in the block at the stack pointer. -/
theorem executes_popList (encoded : (CoreInstruction.popList list).encode .al = .ok w)
    (no_sp : .sp ∉ listed list) (no_pc : .pc ∉ listed list) (aligned : s.core .sp % 4 = 0)
    (found : s.memory.readBlock (s.core .sp) (listed list).length = some ((listed list).map f)) :
    ∃ t, Executes u [w] s t ∧ t.core .sp = s.core .sp + stackSize list ∧
      (∀ q ∈ listed list, t.core q = f q) ∧
      (∀ q ∉ listed list, q ≠ .pc → q ≠ .sp → t.core q = s.core q) ∧ t.memory = s.memory := by
  have sp_pc : Register.sp ≠ .pc := by decide
  obtain ⟨core, -, -, memory⟩ := foldl_write (listed list) f
    (s.write .sp (s.core .sp + stackSize list)).advance
  refine ⟨_, .take (Decode.decode_transferBlock encoded) (Condition.holds_al _)
    (CoreInstruction.execute_popList no_sp aligned found) ?_, ?_, ?_, ?_, memory⟩
  · rw [core, if_neg no_pc]
    simp [sp_pc.symm]
  · rw [core, if_neg no_sp]
    simp [sp_pc]
  · intro q mem
    rw [core, if_pos mem]
  · intro q outside other other_sp
    rw [core, if_neg outside]
    simp [other, other_sp]

end Machine

end A32Assembler
