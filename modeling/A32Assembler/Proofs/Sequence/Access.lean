import A32Assembler.Proofs.Machine.Cycle
import A32Assembler.Proofs.Sequence.Offset

/-!
# What transfers at offsets move

Running the code for a transfer at an offset: the address may be computed in `IP` first, and then
the transfer moves what its registers hold there and then. So a load gives what memory holds at the
base plus the offset, and a store writes what its registers held in the beginning, unless one of
them is `IP` and the address went through it.
-/

namespace A32Assembler

open Machine

namespace FloatRegister

/-- The double in which a VFP register lies. -/
def inside : {p : Precision} → FloatRegister p → DRegister
  | .single, s => s.container
  | .double, d => d

/-- The number of its words. -/
def wordCount {p : Precision} (_ : FloatRegister p) : Nat :=
  match p with
  | .single => 1
  | .double => 2

end FloatRegister

namespace Machine.State

variable {s : State} {p : Precision} {d : FloatRegister p} {e : DRegister} {xs : List Word}

/-- A VFP register reads back the words that were written to it. -/
theorem words_writeWords (enough : xs.length = d.wordCount) : (s.writeWords d xs).words d = xs := by
  cases p with
  | single =>
    obtain ⟨x, rfl⟩ := List.length_eq_one_iff.mp enough
    simp [writeWords, words]
  | double =>
    obtain ⟨x, y, rfl⟩ := List.length_eq_two.mp enough
    have low : (y ++ x).extractLsb' 0 32 = x := BitVec.extractLsb'_append_eq_right
    have high : (y ++ x).extractLsb' 32 32 = y := BitVec.extractLsb'_append_eq_left
    have whole : (s.writeWords d [x, y]).double d = y ++ x := double_writeDouble.trans (if_pos rfl)
    rw [words, whole, low, high]

/-- The words of a VFP register depend on the double in which it lies. -/
theorem words_congr {t : State} (same : t.double d.inside = s.double d.inside) :
    t.words d = s.words d := by
  cases p with
  | single =>
    change t.double d.container = s.double d.container at same
    simp only [words, single, same]
  | double =>
    change t.double d = s.double d at same
    rw [words, words, same]

/-- Writing a VFP register leaves the doubles alone in which it does not lie. -/
theorem double_writeWords_of_ne (other : e ≠ d.inside) :
    (s.writeWords d xs).double e = s.double e := by
  fun_cases writeWords s d xs with
  | case1 d x => exact double_writeSingle_of_ne other
  | case2 d x y => exact double_writeDouble.trans (if_neg other)
  | case3 => rfl

end Machine.State

/-- A block that is read has as many words as were asked for. -/
theorem Memory.length_readBlock {m : Memory} {a : Word} {n : Nat} {xs : List Word}
    (h : m.readBlock a n = some xs) : xs.length = n := by
  induction n generalizing a xs with
  | zero =>
    cases h
    rfl
  | succ n ih =>
    obtain ⟨x, -, h⟩ := Option.bind_eq_some_iff.mp h
    obtain ⟨xs, rest, same⟩ := Option.bind_eq_some_iff.mp h
    cases same
    rw [List.length_cons, ih rest]

namespace OperandSize

variable {m m' : Memory} {a x : Word} {size : OperandSize} {xs : List Word}

/-- A transfer of core registers names its first register, and one more at most. -/
theorem exists_registers (rd : Register) :
    ∃ qs, size.registers rd = rd :: qs ∧ qs.length ≤ 1 := by
  cases size with
  | wordPair => exact ⟨[_], rfl, Nat.le_refl 1⟩
  | _ => exact ⟨[], rfl, Nat.zero_le 1⟩

/-- The number of words that are moved. -/
def wordCount : OperandSize → Nat
  | wordPair | double => 2
  | _ => 1

/-- A load gives as many words as are moved. -/
theorem length_load (h : size.load m a = some xs) : xs.length = size.wordCount := by
  have one {α : Type} {v : Option α} {g : α → Word} (h : v.map (fun x ↦ [g x]) = some xs) :
      xs.length = 1 := by
    obtain ⟨x, -, rfl⟩ := Option.map_eq_some_iff.mp h
    rfl
  cases size with
  | byte | unsignedByte | halfword | unsignedHalfword => exact one h
  | word | unsignedWord => exact Memory.length_readBlock h
  | single | wordPair | double =>
    exact Memory.length_readBlock (Option.ite_none_right_eq_some.mp h).2

/-- A store of words can be made at address zero if memory has no gaps. -/
theorem exists_store (size : OperandSize) (x : Word) (full : ∀ b, (m b).isSome)
    (short : 4 * (xs.length + 1) ≤ 2 ^ 32) : ∃ m', size.store m 0 (x :: xs) = some m' := by
  have accessible : m.Accessible 0 (4 * (x :: xs).length) := fun b _ ↦ full b
  obtain ⟨whole, written⟩ := Memory.exists_writeBlock accessible short
  have aligned : (0 : Word) % 4 = 0 := rfl
  obtain ⟨b0, first⟩ := Option.isSome_iff_exists.mp (full 0)
  obtain ⟨b1, second⟩ := Option.isSome_iff_exists.mp (full (0 + 1))
  have half : m.readHalf 0 = some (b1 ++ b0) := by
    simp only [Memory.readHalf, first, second]
    rfl
  cases size with
  | byte | unsignedByte => exact ⟨_, Option.map_eq_some_iff.mpr ⟨b0, first, rfl⟩⟩
  | halfword | unsignedHalfword => exact ⟨_, Option.map_eq_some_iff.mpr ⟨_, half, rfl⟩⟩
  | word | unsignedWord => exact ⟨whole, written⟩
  | single | wordPair | double =>
    exact ⟨whole, Option.ite_none_right_eq_some.mpr ⟨aligned, written⟩⟩

/-- A store leaves the lowest byte of the first word at its address. -/
theorem apply_store (stored : size.store m a (x :: xs) = some m')
    (short : 4 * (xs.length + 1) ≤ 2 ^ 32) : m' a = some (x.extractLsb' 0 8) := by
  have block (written : m.writeBlock a (x :: xs) = some m') : m' a = some (x.extractLsb' 0 8) := by
    obtain ⟨m1, first, rest⟩ := Option.bind_eq_some_iff.mp written
    have outside : ¬ Memory.Range (a + 4) (4 * xs.length) a := by
      unfold Memory.Range
      have distance : (a - (a + 4)).toNat = 2 ^ 32 - 4 := by bv_omega
      omega
    obtain ⟨-, -, rfl⟩ := Option.map_eq_some_iff.mp first
    rw [Memory.writeBlock_frame rest (by omega) outside]
    exact if_pos rfl
  cases size with
  | byte | unsignedByte =>
    obtain ⟨-, -, rfl⟩ := Option.map_eq_some_iff.mp stored
    rw [Function.update_self, BitVec.setWidth_eq_extractLsb' (by decide)]
  | halfword | unsignedHalfword =>
    obtain ⟨-, -, rfl⟩ := Option.map_eq_some_iff.mp stored
    have other : a ≠ a + 1 := by bv_omega
    rw [Function.update_of_ne other, Function.update_self,
      BitVec.setWidth_eq_extractLsb' (by decide)]
    exact congrArg some (Word.extractLsb'_extractLsb' x (by decide))
  | word | unsignedWord => exact block stored
  | single | wordPair | double => exact block (Option.ite_none_right_eq_some.mp stored).2

end OperandSize

namespace Machine.State

variable {s : State} {rs : List Register}

/-- A transfer at a constant offset moves no base. -/
theorem transfer_ofOffset (load : Bool) (size : OperandSize) (base : Register) (offset : Word)
    (free : .pc ∉ rs) :
    s.transfer load size rs (.ofOffset base offset) =
      if load then (size.load s.memory (s.read base + offset)).map fun xs ↦ (s.fill rs xs).advance
      else (size.store s.memory (s.read base + offset) (rs.map s.core)).map fun memory ↦
        { s with memory }.advance := by
  have predictable : (Address.ofOffset base offset).Predictable rs := by
    rw [Address.ofOffset_eq]
    exact ⟨free, by simp [Displacement.register?], .inl rfl⟩
  have read : rs.map s.read = rs.map s.core :=
    List.map_congr_left fun r mem ↦ State.read_of_ne fun same ↦ free (same ▸ mem)
  simp only [transfer, predictable, moveBase, Address.access_ofOffset, read, not_true_eq_false,
    if_false]

end Machine.State

namespace OffsetTransfer

variable {u : FloatUnit} {x : OffsetTransfer} {f : Mnemonic} {s t r : State} {base : Register}
  {offset address : Word} {c : Condition} {ws : List Word} {features : Features}

/-- Whether memory is read. -/
def isLoad : OffsetTransfer → Bool
  | load .. => true
  | store .. => false
  | float isLoad _ => isLoad

/-- How much is moved. -/
def size : OffsetTransfer → OperandSize
  | load size _ | store size _ => size
  | float (p := p) _ _ => Sequence.floatSize p

/-- The core registers between which and memory a transfer moves. -/
def cores : OffsetTransfer → List Register
  | load size rd | store size rd => size.registers rd
  | float .. => []

/-- The double between which and memory a transfer moves. -/
def doubles : OffsetTransfer → List DRegister
  | float _ d => [d.inside]
  | _ => []

/-- The words that the registers hold. -/
def values (s : State) : OffsetTransfer → List Word
  | load size rd | store size rd => (size.registers rd).map s.core
  | float _ d => s.words d

/-- Other words in the registers. -/
def fill (s : State) (xs : List Word) : OffsetTransfer → State
  | load size rd | store size rd => s.fill (size.registers rd) xs
  | float _ d => s.writeWords d xs

/-- The state after the words at an address have been moved. -/
def move (x : OffsetTransfer) (s : State) (address : Word) : Option State :=
  if x.isLoad then (x.size.load s.memory address).map fun xs ↦ (x.fill s xs).advance
  else (x.size.store s.memory address (x.values s)).map fun memory ↦ { s with memory }.advance

-- A pair is transferred at a constant offset, which no register is the distance of.
private theorem perform_pair {load : Bool} {rd rd2 : Register} :
    (Instruction.core (.transferPair load rd rd2 (.ofOffset base offset))).perform u s =
      s.transfer load .wordPair [rd, rd2] (.ofOffset base offset) := by
  have constant : (Address.ofOffset base offset).displacement.register? = none := by
    simp [Address.ofOffset_eq, Displacement.register?]
  simp [Instruction.perform, CoreInstruction.perform, constant]

/-- Performing the mnemonic of a transfer moves what its registers hold. -/
theorem perform_mnemonic (supported : x.mnemonic? = some f) (free : .pc ∉ x.cores) :
    (f (.ofOffset base offset)).perform u s = x.move s (s.read base + offset) := by
  cases x with
  | load size rd =>
    have moves := s.transfer_ofOffset true size base offset free
    cases size with cases supported
    | wordPair => exact perform_pair.trans moves
    | _ => exact moves
  | store size rd =>
    have moves := s.transfer_ofOffset false size base offset free
    cases size with cases supported
    | wordPair => exact perform_pair.trans moves
    | _ => exact moves
  | @float isLoad p d =>
    cases supported
    simp only [Instruction.perform, FloatInstruction.perform, State.transferFloat,
      Address.access_ofOffset]
    rfl

/-- The first of the core registers. -/
def register? : OffsetTransfer → Option Register
  | load _ rd | store _ rd => some rd
  | float .. => none

/-- The core registers of a transfer that is accepted are the first, and maybe an odd one that is
not `PC`. -/
theorem eq_or_odd_of_mem_cores (supported : x.mnemonic? = some f) (accepts : f.Accepts)
    {q : Register} (mem : q ∈ x.cores) :
    x.register? = some q ∨ q.number % 2 = 1 ∧ q ≠ .pc := by
  have second {rd rd2 : Register} {load : Bool} (next : rd2.number = rd.number + 1)
      (accepts : Mnemonic.Accepts fun a ↦ .core (.transferPair load rd rd2 a)) :
      rd2.number % 2 = 1 ∧ rd2 ≠ .pc := by
    obtain ⟨even, other⟩ := first_of_accepts accepts
    have odd : ∀ n : BitVec 8, n % 2 = 0 → (n + 1) % 2 = 1 := by decide
    refine ⟨next ▸ odd _ even, ?_⟩
    rintro rfl
    have number : (15 : BitVec 8) = rd.number + 1 := next
    exact other (congrArg Register.mk (by bv_omega : rd.number = 14))
  have pair {rd : Register} {load : Bool}
      (accepts : Mnemonic.Accepts fun a ↦ .core (.transferPair load rd ⟨rd.number + 1⟩ a))
      (mem : q ∈ [rd, ⟨rd.number + 1⟩]) : some rd = some q ∨ q.number % 2 = 1 ∧ q ≠ .pc := by
    obtain rfl | mem := List.mem_cons.mp mem
    · exact .inl rfl
    · obtain rfl := List.mem_singleton.mp mem
      exact .inr (second rfl accepts)
  cases x with
  | load size rd | store size rd =>
    cases size with cases supported
    | wordPair => exact pair accepts mem
    | _ => exact .inl (congrArg some (List.mem_singleton.mp mem).symm)
  | float => cases mem

/-- Transfers that are accepted do not name `PC`, unless it is their first register. -/
theorem pc_not_mem_cores (supported : x.mnemonic? = some f) (accepts : f.Accepts)
    (low : x.register? ≠ some .pc) : .pc ∉ x.cores := fun mem ↦
  (eq_or_odd_of_mem_cores supported accepts mem).elim low fun odd ↦ odd.2 rfl

/-- `IP` is among the registers only as the first. -/
theorem ip_not_mem_cores (supported : x.mnemonic? = some f) (accepts : f.Accepts)
    (other : x.register? ≠ some .ip) : .ip ∉ x.cores := fun mem ↦
  (eq_or_odd_of_mem_cores supported accepts mem).elim other fun odd ↦ absurd odd.1 (by decide)

/-- Moving goes on to the next instruction. -/
theorem core_pc_move (free : .pc ∉ x.cores) (moved : x.move s address = some t) :
    t.core .pc = s.core .pc + 4 := by
  unfold move at moved
  split at moved
  · obtain ⟨xs, -, rfl⟩ := Option.map_eq_some_iff.mp moved
    have kept : (x.fill s xs).core .pc = s.core .pc := by
      cases x with
      | load size rd | store size rd => exact State.core_fill_of_not_mem free
      | float isLoad d => exact congrFun State.core_writeWords _
    rw [State.core_advance, if_pos rfl, kept]
  · obtain ⟨m, -, rfl⟩ := Option.map_eq_some_iff.mp moved
    exact State.core_advance.trans (if_pos rfl)

-- Behind what prepares the address, the last word moves what the registers hold there.
private theorem Performs.exists_run {site : Register} {rest last : Word} {setup : List Word}
    (performs : Performs u c f base offset setup last (.ofOffset site rest))
    (supported : x.mnemonic? = some f) (free : .pc ∉ x.cores) (holds : c.holds s.flags) :
    ∃ r, Executes u setup s r ∧ r.flags = s.flags ∧ s.Keeps r [.ip] [] ∧
      r.read site + rest = s.core base + offset ∧
      ∀ t, x.move r (s.core base + offset) = some t → Completes u (setup ++ [last]) s t := by
  obtain ⟨r, executes, flags, keeps, access⟩ := performs.accesses s holds
  rw [Address.access_ofOffset] at access
  have there : r.read site + rest = s.core base + offset := congrArg Access.address access
  refine ⟨r, executes, flags, keeps, there, fun t moved ↦ ?_⟩
  refine .append (.of_executes executes) (.single performs.decoded ?_ (core_pc_move free moved))
  rw [Predicated.perform, if_pos (by rwa [flags]), perform_mnemonic supported free, there]
  exact moved

/-- Running a transfer: at first nothing but `IP` changes, to the address if that is out of reach,
and then what the registers hold moves. -/
theorem exists_run (low : base.number < 15) (first : x.register? ≠ some .pc)
    (spelled : ((x.request base offset).sequence features c).words = .ok ws)
    (holds : c.holds s.flags) :
    ∃ r, r.flags = s.flags ∧ s.Keeps r [.ip] [] ∧
      r.core .ip = (if x.Reaches offset then s.core .ip else s.core base + offset) ∧
      ∀ t, x.move r (s.core base + offset) = some t → Completes u ws s t := by
  obtain ⟨f, supported, accepts⟩ := accepts_of_words spelled
  have free := pc_not_mem_cores supported accepts first
  by_cases reaches : x.Reaches offset
  · obtain ⟨w, spelled', performs⟩ :=
      performs_of_reaches (u := u) supported accepts low reaches
    obtain rfl := Except.ok.inj (spelled.symm.trans spelled')
    obtain ⟨r, executes, flags, keeps, -, runs⟩ := performs.exists_run supported free holds
    have still : s = r := Option.some.inj (executes.run_eq (fun _ ↦ none) nofun)
    refine ⟨r, flags, keeps, ?_, runs⟩
    rw [if_pos reaches, still]
  · have other : base ≠ .ip := by
      rintro rfl
      cases spelled.symm.trans (words_of_base_ip supported accepts reaches)
    obtain ⟨setup, w, -, spelled', performs⟩ :=
      performs_of_not_reaches (u := u) supported accepts low reaches other
    obtain rfl := Except.ok.inj (spelled.symm.trans spelled')
    obtain ⟨r, -, flags, keeps, there, runs⟩ := performs.exists_run supported free holds
    refine ⟨r, flags, keeps, ?_, runs⟩
    rw [if_neg reaches, ← there, State.read_of_ne (by decide)]
    exact (BitVec.add_zero _).symm

/-- The registers hold the same where the core registers and the double do. -/
theorem values_congr (cores : ∀ q ∈ x.cores, t.core q = s.core q)
    (doubles : ∀ d ∈ x.doubles, t.double d = s.double d) : x.values t = x.values s := by
  cases x with
  | load size rd | store size rd => exact List.map_congr_left cores
  | float isLoad d => exact State.words_congr (doubles _ (List.mem_singleton.mpr rfl))

/-- A store that memory allows moves on with the memory behind it. -/
theorem move_of_stored {m : Memory} (kind : x.isLoad = false)
    (stored : x.size.store s.memory address (x.values s) = some m) :
    x.move s address = some (State.advance { s with memory := m }) := by
  rw [move, kind, if_neg Bool.false_ne_true, stored]
  rfl

/-- Filling the registers changes no others. -/
theorem keeps_fill {xs : List Word} : s.Keeps (x.fill s xs) x.cores x.doubles := by
  cases x with
  | load size rd | store size rd =>
    exact ⟨fun q _ outside ↦ State.core_fill_of_not_mem outside, fun d _ ↦ by simp [fill],
      State.memory_fill⟩
  | float isLoad d =>
    refine ⟨fun q _ _ ↦ by simp [fill], fun e outside ↦ ?_, State.memory_writeWords⟩
    exact State.double_writeWords_of_ne (by simpa [doubles] using outside)

/-- Neither does it change the flags. -/
@[simp] theorem flags_fill {xs : List Word} : (x.fill s xs).flags = s.flags := by
  cases x <;> simp [fill]

/-- The registers hold what they are filled with. -/
theorem values_fill {xs : List Word} (supported : x.mnemonic? = some f)
    (loaded : x.size.load s.memory address = some xs) : x.values (x.fill r xs) = xs := by
  have enough := OperandSize.length_load loaded
  have single (rd : Register) : [rd].Nodup := List.nodup_singleton rd
  have pair (rd : Register) : [rd, ⟨rd.number + 1⟩].Nodup := by
    refine List.nodup_cons.mpr ⟨fun mem ↦ ?_, single _⟩
    have same : rd.number = rd.number + 1 :=
      congrArg Register.number (List.mem_singleton.mp mem)
    bv_omega
  cases x with
  | load size rd | store size rd =>
    cases size with cases supported
    | wordPair => exact State.map_core_fill (pair rd) enough
    | _ => exact State.map_core_fill (single rd) enough
  | @float isLoad p d =>
    refine State.words_writeWords (enough.trans ?_)
    cases p <;> rfl

/-- What a transfer is for. A load leaves in its registers what memory holds at the base plus the
offset; a store writes there what its registers held. Nothing else has changed but `IP`. -/
structure Moves (x : OffsetTransfer) (base : Register) (offset : Word) (s t : State) : Prop where
  flags : t.flags = s.flags
  loaded : x.isLoad = true → x.size.load s.memory (s.core base + offset) = some (x.values t) ∧
    s.Keeps t (.ip :: x.cores) x.doubles
  stored : x.isLoad = false →
    x.size.store s.memory (s.core base + offset) (x.values s) = some t.memory ∧
      State.Keeps { s with memory := t.memory } t [.ip] []

/-- Memory allows the access of a transfer. -/
def Possible (x : OffsetTransfer) (base : Register) (offset : Word) (s : State) : Prop :=
  (x.move s (s.core base + offset)).isSome

/-- The contract of a transfer. -/
def contract (x : OffsetTransfer) (base : Register) (offset : Word) : Contract :=
  ⟨x.Possible base offset, x.Moves base offset⟩

/-- A transfer does what it is for if what goes before it changes `IP` only, and no value that it
stores. -/
theorem exists_moves (supported : x.mnemonic? = some f) (flags : r.flags = s.flags)
    (keeps : s.Keeps r [.ip] []) (free : .pc ∉ x.cores)
    (values : x.isLoad = false → x.values r = x.values s) (possible : x.Possible base offset s) :
    ∃ t, x.move r (s.core base + offset) = some t ∧ x.Moves base offset s t := by
  obtain ⟨t, moved⟩ := Option.isSome_iff_exists.mp possible
  unfold move at moved ⊢
  cases kind : x.isLoad with
  | true =>
    rw [kind, if_pos rfl] at moved
    obtain ⟨xs, loaded, -⟩ := Option.map_eq_some_iff.mp moved
    rw [if_pos rfl, keeps.memory, loaded]
    have filled : x.values (x.fill r xs).advance = xs := by
      refine .trans ?_ (values_fill (r := r) supported loaded)
      exact values_congr (fun q mem ↦ by simp [ne_of_mem_of_not_mem mem free]) fun _ _ ↦ rfl
    refine ⟨_, rfl, ?_, fun _ ↦ ⟨?_, ?_⟩, fun other ↦ ?_⟩
    · rw [State.flags_advance, flags_fill, flags]
    · rw [filled, loaded]
    · exact (keeps.andThen keeps_fill).advance
    · rw [kind] at other
      cases other
  | false =>
    rw [kind, if_neg Bool.false_ne_true] at moved
    obtain ⟨m, stored, -⟩ := Option.map_eq_some_iff.mp moved
    rw [if_neg Bool.false_ne_true, keeps.memory, values kind, stored]
    refine ⟨_, rfl, flags, fun other ↦ ?_, fun _ ↦ ⟨stored, ?_⟩⟩
    · rw [kind] at other
      cases other
    · exact State.Keeps.advance ⟨keeps.core, keeps.double, rfl⟩

/-- A store through `IP` of what `IP` holds. -/
def Clashes (offset : Word) : OffsetTransfer → Prop
  | store size rd => rd = .ip ∧ ¬ size.CanStore offset
  | _ => False

/-- Only stores clash. -/
theorem isLoad_of_clashes (clash : x.Clashes offset) : x.isLoad = false := by
  cases x with
  | store => rfl
  | load | float => exact clash.elim

/-- Without a clash, what a store moves is what its registers held in the beginning. -/
theorem values_of_not_clashes (supported : x.mnemonic? = some f) (accepts : f.Accepts)
    (free : .pc ∉ x.cores) (apart : ¬ x.Clashes offset) (keeps : s.Keeps r [.ip] [])
    (ip : x.Reaches offset → r.core .ip = s.core .ip) (kind : x.isLoad = false) :
    x.values r = x.values s := by
  refine values_congr (fun q mem ↦ ?_) fun d _ ↦ keeps.double d List.not_mem_nil
  have other : q ≠ .pc := ne_of_mem_of_not_mem mem free
  by_cases scratch : q = .ip
  · subst scratch
    cases x with
    | load => cases kind
    | store size rd =>
      have first : rd = .ip := by
        by_contra other
        exact ip_not_mem_cores supported accepts (fun same ↦ other (Option.some.inj same)) mem
      exact ip (by_contra fun far ↦ apart ⟨first, far⟩)
    | float => cases mem
  · exact keeps.core q other (by simpa using scratch)

/-- A sequence of a transfer is short. -/
theorem length_le (spelled : ((x.request base offset).sequence features c).words = .ok ws) :
    ws.length ≤ 4 := by
  obtain ⟨f, supported, accepts⟩ := accepts_of_words spelled
  have setup : (Sequence.reach c base offset (x.Reaches offset)).1.length ≤ 3 := by
    unfold Sequence.reach Sequence.guarded
    split
    · exact Nat.zero_le _
    split
    · exact Sequence.length_withConstant_le
    · exact Nat.le_of_ble_eq_true rfl
  rw [Sequence.length_words spelled, sequence_eq supported accepts, List.length_append]
  exact Nat.add_le_add_right setup 1

/-- A store through `IP` of what `IP` holds writes the address in place of it. -/
theorem exists_not_stored (low : base.number < 15)
    (spelled : ((x.request base offset).sequence features c).words = .ok ws)
    (clash : x.Clashes offset) : ∃ s t, c.holds s.flags ∧ x.Possible base offset s ∧
      Completes u ws s t ∧
      x.size.store s.memory (s.core base + offset) (x.values s) ≠ some t.memory := by
  obtain ⟨f, supported, accepts⟩ := accepts_of_words spelled
  cases x with
  | load | float => exact clash.elim
  | store size rd =>
    obtain ⟨rfl, far⟩ := clash
    have other : base ≠ .ip := by
      rintro rfl
      cases spelled.symm.trans (words_of_base_ip supported accepts far)
    obtain ⟨flags, holds⟩ := c.exists_holds
    -- the access is at address zero, and `IP` holds another word before
    let s : State := ⟨fun q ↦ if q = .ip then 1 else -offset, flags, fun _ ↦ 0, fun _ ↦ some 0⟩
    have zero : s.core base + offset = 0 := by simp [s, other]
    obtain ⟨qs, registers, few⟩ := size.exists_registers .ip
    have values (r : State) : values r (store size .ip) = r.core .ip :: qs.map r.core :=
      congrArg (List.map r.core) registers
    have short (r : State) : 4 * ((qs.map r.core).length + 1) ≤ 2 ^ 32 := by
      rw [List.length_map]
      omega
    have moves (r : State) (same : r.memory = s.memory) :
        ∃ m, m 0 = some ((r.core .ip).extractLsb' 0 8) ∧
          (store size .ip).move r 0 = some (State.advance { r with memory := m }) := by
      obtain ⟨m, stored⟩ :=
        OperandSize.exists_store (m := s.memory) size (r.core .ip) (fun _ ↦ rfl) (short r)
      refine ⟨m, OperandSize.apply_store stored (short r), move_of_stored rfl ?_⟩
      rw [values, same]
      exact stored
    have first : (store size .ip).register? ≠ some .pc :=
      show some Register.ip ≠ some .pc by decide
    obtain ⟨r, -, keeps, ip, runs⟩ := exists_run (s := s) (u := u) low first spelled holds
    have address : r.core .ip = 0 := (ip.trans (if_neg far)).trans zero
    obtain ⟨m, -, moved⟩ := moves s rfl
    obtain ⟨m', lowest, moved'⟩ := moves r keeps.memory
    refine ⟨s, _, holds, ?_, runs _ (by rw [zero]; exact moved'), fun stored ↦ ?_⟩
    · rw [Possible, zero, moved]
      rfl
    · rw [zero, values] at stored
      have wanted : m' 0 = some 1 := OperandSize.apply_store stored (short s)
      rw [address, wanted] at lowest
      exact absurd lowest (by decide)

/-- A transfer does what it is for, wherever memory allows it, unless it clashes. -/
theorem contract_met_iff (low : base.number < 15) (first : x.register? ≠ some .pc)
    (spelled : ((x.request base offset).sequence features c).words = .ok ws) :
    (x.contract base offset).Met u c ws ↔ ¬ x.Clashes offset := by
  obtain ⟨f, supported, accepts⟩ := accepts_of_words spelled
  have free := pc_not_mem_cores supported accepts first
  constructor
  · intro met clash
    obtain ⟨s, t, holds, possible, completes, wrong⟩ :=
      exists_not_stored (u := u) low spelled clash
    have short := length_le spelled
    refine Contract.not_met (by omega) holds possible completes (fun moves ↦ ?_) met
    exact wrong (moves.stored (isLoad_of_clashes clash)).1
  · intro apart s holds possible
    obtain ⟨r, flags, keeps, ip, runs⟩ := exists_run (u := u) low first spelled holds
    have kept (reaches : x.Reaches offset) : r.core .ip = s.core .ip := by rw [ip, if_pos reaches]
    obtain ⟨t, moved, moves⟩ := exists_moves supported flags keeps free
      (values_of_not_clashes supported accepts free apart keeps kept) possible
    exact ⟨t, runs t moved, moves⟩

end OffsetTransfer

end A32Assembler
