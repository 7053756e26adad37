import A32Assembler.Proofs.Decoding.Families
import A32Assembler.Proofs.Machine.Address
import A32Assembler.Proofs.Sequence.Immediate

/-!
# Transfers at any offset

A transfer at an offset is one instruction exactly when the instruction has room for the offset.
Otherwise the address is computed in `IP` first. In both cases the transfer accesses the sum of the
base, as it was before, and the offset.
-/

namespace A32Assembler

open Machine

/-- A mnemonic of a single transfer, with its register, by the address. -/
abbrev Mnemonic := Address → Instruction

/-- Some address makes an instruction with a word, so the register can be transferred. -/
def Mnemonic.Accepts (f : Mnemonic) : Prop :=
  ∃ (c : Condition) (a : Address) (w : Word), (f a).encode c = .ok w

/-- A transfer between a register and memory at a base and an offset. -/
inductive OffsetTransfer
  | load (size : OperandSize) (rd : Register)
  | store (size : OperandSize) (rd : Register)
  /-- A load or a store of a VFP register. -/
  | float (isLoad : Bool) {p : Precision} (d : FloatRegister p)

namespace OffsetTransfer

/-- The request for a transfer. -/
def request (base : Register) (offset : Word) : OffsetTransfer → Request
  | load size rd => .loadOffset size rd base offset
  | store size rd => .storeOffset size rd base offset
  | float isLoad d => .floatOffset isLoad d base offset

/-- Whether one instruction is taken to be enough. -/
def Reaches (offset : Word) : OffsetTransfer → Prop
  | load size _ => size.CanLoad offset
  | store size _ => size.CanStore offset
  | float isLoad (p := p) _ =>
    if isLoad then (Sequence.floatSize p).CanLoad offset else (Sequence.floatSize p).CanStore offset

/-- The reach of a transfer is that of its load or store, which can be computed. -/
instance (x : OffsetTransfer) (offset : Word) : Decidable (x.Reaches offset) := by
  cases x <;> unfold Reaches <;> infer_instance

/-- The mnemonic for the size of a transfer; a core register has no VFP size. A signed load extends
the sign, a word pair fills a register and the one after it, and a store does not know signs. -/
def mnemonic? : OffsetTransfer → Option Mnemonic
  | load .byte rd => some fun a ↦ .core (.transferMisc .ldrsb rd a)
  | load .unsignedByte rd => some fun a ↦ .core (.transfer true true rd a)
  | load .halfword rd => some fun a ↦ .core (.transferMisc .ldrsh rd a)
  | load .unsignedHalfword rd => some fun a ↦ .core (.transferMisc .ldrh rd a)
  | load .word rd | load .unsignedWord rd => some fun a ↦ .core (.transfer true false rd a)
  | load .wordPair rd => some fun a ↦ .core (.transferPair true rd ⟨rd.number + 1⟩ a)
  | store .byte rd | store .unsignedByte rd => some fun a ↦ .core (.transfer false true rd a)
  | store .halfword rd | store .unsignedHalfword rd =>
    some fun a ↦ .core (.transferMisc .strh rd a)
  | store .word rd | store .unsignedWord rd => some fun a ↦ .core (.transfer false false rd a)
  | store .wordPair rd => some fun a ↦ .core (.transferPair false rd ⟨rd.number + 1⟩ a)
  | load .single _ | load .double _ | store .single _ | store .double _ => none
  | float isLoad d => some fun a ↦ .float (.transfer isLoad d a)

end OffsetTransfer

namespace Address

variable {base : Register} {offset : Word}

/-- Word and byte transfers have room for twelve bits. -/
theorem exists_encodingWord (hb : base.number < 15) :
    (∃ x, (ofOffset base offset).encodingWord = .ok x) ↔ magnitude offset < 4096 := by
  obtain ⟨b, hb⟩ := Register.exists_code (r := base) (by bv_omega)
  simp [ofOffset_eq, encodingWord, hb, bind_eq_ok]

/-- Halfword, signed and doubleword transfers have room for eight bits. -/
theorem exists_encodingMisc (hb : base.number < 15) :
    (∃ x, (ofOffset base offset).encodingMisc = .ok x) ↔ magnitude offset < 256 := by
  obtain ⟨b, hb⟩ := Register.exists_code (r := base) (by bv_omega)
  simp [ofOffset_eq, encodingMisc, hb, bind_eq_ok]

/-- VFP transfers have room for eight bits that count words. -/
theorem exists_encodingVfp (hb : base.number < 15) :
    (∃ x, (ofOffset base offset).encodingVfp = .ok x) ↔
      magnitude offset < 1024 ∧ magnitude offset % 4 = 0 := by
  obtain ⟨b, hb⟩ := Register.exists_code (r := base) (by bv_omega)
  simp [ofOffset_eq, encodingVfp, hb, bind_eq_ok, and_comm]

end Address

section Room

variable {base rd rd2 : Register} {offset : Word} {c : Condition}

/-- Word and byte transfers of a register that they accept. -/
theorem exists_transfer {load byte : Bool}
    (accepts : Mnemonic.Accepts fun a ↦ .core (.transfer load byte rd a))
    (hb : base.number < 15) :
    (∃ w, (CoreInstruction.transfer load byte rd (.ofOffset base offset)).encode c = .ok w) ↔
      magnitude offset < 4096 := by
  obtain ⟨d, a, w, h⟩ := accepts
  simp only [Instruction.encode, CoreInstruction.encode, Encoding.loadStore, bind_eq_ok] at h
  obtain ⟨t, ht, -⟩ := h
  simp [CoreInstruction.encode, Encoding.loadStore, ht, bind_eq_ok, Address.exists_encodingWord hb]

/-- Halfword and signed transfers of a register that they accept. -/
theorem exists_transferMisc {op : MiscTransferOp}
    (accepts : Mnemonic.Accepts fun a ↦ .core (.transferMisc op rd a))
    (hb : base.number < 15) :
    (∃ w, (CoreInstruction.transferMisc op rd (.ofOffset base offset)).encode c = .ok w) ↔
      magnitude offset < 256 := by
  obtain ⟨d, a, w, h⟩ := accepts
  simp only [Instruction.encode, CoreInstruction.encode, Encoding.loadStoreMisc, bind_eq_ok] at h
  obtain ⟨t, ht, -⟩ := h
  simp [CoreInstruction.encode, Encoding.loadStoreMisc, ht, bind_eq_ok,
    Address.exists_encodingMisc hb]

/-- Transfers of a register pair that they accept. -/
theorem exists_transferPair {load : Bool}
    (accepts : Mnemonic.Accepts fun a ↦ .core (.transferPair load rd rd2 a))
    (hb : base.number < 15) :
    (∃ w, (CoreInstruction.transferPair load rd rd2 (.ofOffset base offset)).encode c = .ok w) ↔
      magnitude offset < 256 := by
  obtain ⟨d, a, w, h⟩ := accepts
  simp only [Instruction.encode, CoreInstruction.encode, Encoding.loadStoreMisc, bind_eq_ok] at h
  obtain ⟨⟨⟩, pair, t, ht, -⟩ := h
  simp [CoreInstruction.encode, Encoding.loadStoreMisc, pair, ht, bind_eq_ok,
    Address.exists_encodingMisc hb]

/-- Transfers of a VFP register that they accept. -/
theorem exists_floatTransfer {load : Bool} {p : Precision} {d : FloatRegister p}
    (accepts : Mnemonic.Accepts fun a ↦ .float (.transfer load d a)) (hb : base.number < 15) :
    (∃ w, (FloatInstruction.transfer load d (.ofOffset base offset)).encode c = .ok w) ↔
      magnitude offset < 1024 ∧ magnitude offset % 4 = 0 := by
  obtain ⟨c', a, w, h⟩ := accepts
  simp only [Instruction.encode, FloatInstruction.encode, bind_eq_ok] at h
  obtain ⟨s, hs, -⟩ := h
  simp [FloatInstruction.encode, Encoding.vfpLoadStore, hs, bind_eq_ok,
    Address.exists_encodingVfp hb]

end Room

namespace OffsetTransfer

variable {x : OffsetTransfer} {f : Mnemonic} {base : Register} {offset : Word} {c : Condition}

/-- One instruction is taken to be enough exactly when the mnemonic has room for the offset. -/
theorem reaches_iff (supported : x.mnemonic? = some f) (accepts : f.Accepts)
    (hb : base.number < 15) :
    x.Reaches offset ↔ ∃ w, (f (.ofOffset base offset)).encode c = .ok w := by
  cases x with
  | load size rd =>
    cases size with cases supported
    | byte | halfword | unsignedHalfword => exact (exists_transferMisc accepts hb).symm
    | unsignedByte | word | unsignedWord => exact (exists_transfer accepts hb).symm
    | wordPair => exact (exists_transferPair accepts hb).symm
  | store size rd =>
    cases size with cases supported
    | halfword | unsignedHalfword => exact (exists_transferMisc accepts hb).symm
    | byte | unsignedByte | word | unsignedWord => exact (exists_transfer accepts hb).symm
    | wordPair => exact (exists_transferPair accepts hb).symm
  | @float isLoad p d =>
    cases supported
    cases isLoad <;> cases p <;> exact (exists_floatTransfer accepts hb).symm

/-- A transfer with a constant offset has no operand to be built and no shift to be lost. -/
theorem formed_mnemonic (supported : x.mnemonic? = some f) (base : Register) (offset : Word) :
    (f (.ofOffset base offset)).Formed ∧
      (f (.ofOffset base offset)).plain = f (.ofOffset base offset) := by
  cases x with
  | load size rd =>
    cases size <;> cases supported <;> exact ⟨by rintro o ⟨⟩, rfl⟩
  | store size rd =>
    cases size <;> cases supported <;> exact ⟨by rintro o ⟨⟩, rfl⟩
  | float isLoad d =>
    cases supported
    exact ⟨trivial, rfl⟩

/-- The decoder gives the transfer back as it is. -/
theorem decodeAny_mnemonic {w : Word} (supported : x.mnemonic? = some f)
    (h : (f (.ofOffset base offset)).encode c = .ok w) :
    decodeAny w = some ⟨c, f (.ofOffset base offset)⟩ := by
  obtain ⟨formed, plain⟩ := formed_mnemonic supported base offset
  rw [Decode.decodeAny_encode formed h, plain]

/-- A request with words is one for a size that its register can be transferred with. -/
theorem accepts_of_words {features : Features} {ws : List Word}
    (spelled : ((x.request base offset).sequence features c).words = .ok ws) :
    ∃ f, x.mnemonic? = some f ∧ f.Accepts := by
  have accepts {f : Mnemonic} {a : Address} {vs : List Word}
      (last : (Sequence.issue c [f a]).words = .ok vs) : f.Accepts := by
    obtain ⟨w, -, encoded, -⟩ := Sequence.words_issue_cons.mp last
    exact ⟨c, a, w, encoded⟩
  have paired {rd : Register} {g : Register → Sequence} {vs : List Word}
      (last : (Sequence.withValue rd.next g).words = .ok vs) :
      (g ⟨rd.number + 1⟩).words = .ok vs := by
    unfold Register.next at last
    split at last
    · cases last
    · exact last
  cases x with
  | load size rd =>
    obtain ⟨-, vs, -, last, -⟩ := Sequence.words_append.mp spelled
    cases size with
    | single | double => cases last
    | wordPair => exact ⟨_, rfl, accepts (paired last)⟩
    | _ => exact ⟨_, rfl, accepts last⟩
  | store size rd =>
    obtain ⟨-, vs, -, last, -⟩ := Sequence.words_append.mp spelled
    cases size with
    | single | double => cases last
    | wordPair => exact ⟨_, rfl, accepts (paired last)⟩
    | _ => exact ⟨_, rfl, accepts last⟩
  | float isLoad d =>
    obtain ⟨-, vs, -, last, -⟩ := Sequence.words_append.mp spelled
    exact ⟨_, rfl, accepts last⟩

/-- A pair that is accepted starts with an even register, and not with `LR`. -/
theorem first_of_accepts {rd rd2 : Register} {load : Bool}
    (accepts : Mnemonic.Accepts fun a ↦ .core (.transferPair load rd rd2 a)) :
    rd.number % 2 = 0 ∧ rd ≠ .lr := by
  obtain ⟨d, a, w, h⟩ := accepts
  simp only [Instruction.encode, CoreInstruction.encode, requirePair, bind_eq_ok] at h
  obtain ⟨⟨⟩, ⟨⟨⟩, first, -⟩, -⟩ := h
  exact require_eq_ok.mp first

/-- The second register of a pair that is accepted has a number. -/
theorem next_of_accepts {rd : Register} {load : Bool}
    (accepts : Mnemonic.Accepts fun a ↦ .core (.transferPair load rd ⟨rd.number + 1⟩ a)) :
    rd.next = .ok ⟨rd.number + 1⟩ := by
  obtain ⟨even, -⟩ := first_of_accepts accepts
  have not_last : rd.number ≠ 255 := by
    intro last
    rw [last] at even
    exact absurd even (by decide)
  rw [Register.next, if_neg not_last]

/-- A request expands to what prepares the address, and the mnemonic at the address. -/
theorem sequence_eq {features : Features} (supported : x.mnemonic? = some f) (accepts : f.Accepts) :
    (x.request base offset).sequence features c =
      (Sequence.reach c base offset (x.Reaches offset)).1 ++
        Sequence.issue c [f (Sequence.reach c base offset (x.Reaches offset)).2] := by
  cases x with
  | load size rd =>
    cases size with cases supported
    | wordPair =>
      change _ ++ Sequence.withValue rd.next _ = _
      rw [next_of_accepts accepts]
      rfl
    | _ => rfl
  | store size rd =>
    cases size with cases supported
    | wordPair =>
      change _ ++ Sequence.withValue rd.next _ = _
      rw [next_of_accepts accepts]
      rfl
    | _ => rfl
  | @float isLoad p d =>
    cases supported
    rfl

/-- The offset zero is in reach of every transfer. -/
theorem reaches_zero : x.Reaches 0 := by
  have loads (size : OperandSize) : size.CanLoad 0 := by cases size <;> decide
  have stores (size : OperandSize) : size.CanStore 0 := by cases size <;> decide
  cases x with
  | load size rd => exact loads size
  | store size rd => exact stores size
  | float isLoad d =>
    cases isLoad with
    | true => exact loads _
    | false => exact stores _

/-- Code that ends in a transfer. What goes before it changes `IP` at most, and then the mnemonic
accesses the sum of the base, as it was in the beginning, and the offset, and moves no base. -/
structure Performs (u : FloatUnit) (c : Condition) (f : Mnemonic) (base : Register) (offset : Word)
    (setup : List Word) (last : Word) (site : Address) : Prop where
  decoded : decodeAny last = some ⟨c, f site⟩
  accesses : ∀ s, c.holds s.flags → ∃ t, Executes u setup s t ∧ t.flags = s.flags ∧
    s.Keeps t [.ip] [] ∧ site.access t = ⟨s.core base + offset, none⟩

variable {u : FloatUnit}

/-- A transfer with room for its offset does not need anything before it. -/
theorem performs_of_reaches {features : Features} (supported : x.mnemonic? = some f)
    (accepts : f.Accepts) (hb : base.number < 15) (reaches : x.Reaches offset) :
    ∃ w, ((x.request base offset).sequence features c).words = .ok [w] ∧
      Performs u c f base offset [] w (.ofOffset base offset) := by
  obtain ⟨w, encoded⟩ := (reaches_iff (c := c) supported accepts hb).mp reaches
  have alone : (x.request base offset).sequence features c =
      Sequence.issue c [f (.ofOffset base offset)] := by
    rw [sequence_eq supported accepts, Sequence.reach, if_pos reaches]
    rfl
  refine ⟨w, ?_, decodeAny_mnemonic supported encoded, ?_⟩
  · rw [alone]
    exact Sequence.words_issue_cons.mpr ⟨w, [], encoded, Sequence.words_issue_nil.mpr rfl, rfl⟩
  · intro s _
    refine ⟨s, .nil, rfl, .refl, ?_⟩
    rw [Address.access_ofOffset, State.read_of_ne (Register.ne_pc hb)]

/-- A transfer without room for its offset goes through `IP`. -/
theorem performs_of_not_reaches {features : Features} (supported : x.mnemonic? = some f)
    (accepts : f.Accepts) (hb : base.number < 15) (far : ¬ x.Reaches offset) (free : base ≠ .ip) :
    ∃ setup w, setup ≠ [] ∧
      ((x.request base offset).sequence features c).words = .ok (setup ++ [w]) ∧
      Performs u c f base offset setup w (.ofOffset .ip 0) := by
  have parts : (x.request base offset).sequence features c =
      Sequence.addImmediate c false .ip base offset ++ Sequence.issue c [f (.ofOffset .ip 0)] := by
    rw [sequence_eq supported accepts, Sequence.reach, if_neg far]
    dsimp only
    rw [Sequence.guarded, if_pos free]
  obtain ⟨w, encoded⟩ : ∃ w, (f (.ofOffset .ip 0)).encode c = .ok w :=
    (reaches_iff supported accepts (by decide)).mp x.reaches_zero
  have adds : (Sequence.addImmediate c false .ip base offset).HasEffect u _ :=
    Sequence.addImmediate_effect (by decide) hb fun same ↦ free same.1
  obtain ⟨setup, spelled, runs⟩ := adds
  refine ⟨setup, w, ?_, ?_, decodeAny_mnemonic supported encoded, ?_⟩
  · rintro rfl
    have none := (Sequence.length_words spelled).symm
    exact Sequence.withConstant_ne_nil (List.eq_nil_of_length_eq_zero none)
  · rw [parts, Sequence.words_append]
    exact ⟨setup, [w], spelled,
      Sequence.words_issue_cons.mpr ⟨w, [], encoded, Sequence.words_issue_nil.mpr rfl, rfl⟩, rfl⟩
  · intro s holds
    obtain ⟨t, executes, added⟩ := runs s
    obtain ⟨sum, flags, keeps⟩ := added holds
    refine ⟨t, executes, flags, keeps.mono (by simp) (by simp), ?_⟩
    have nothing : s.core base + offset + 0 = s.core base + offset := BitVec.add_zero _
    rw [Address.access_ofOffset, State.read_of_ne (by decide), sum, nothing]

/-- Without room for its offset and without `IP`, a transfer is a misuse. -/
theorem words_of_base_ip {features : Features} (supported : x.mnemonic? = some f)
    (accepts : f.Accepts) (far : ¬ x.Reaches offset) :
    ((x.request .ip offset).sequence features c).words = .error (.offsetScratch offset) := by
  rw [sequence_eq supported accepts, Sequence.reach, if_neg far]
  rfl

end OffsetTransfer

/-- A transfer at an offset, for every size that a register can be transferred with, every register
that the mnemonic of the size accepts, every base below `PC` and every offset: the offset is taken
to be in reach exactly when the mnemonic has room for it; then the mnemonic alone is issued.
Otherwise it is a misuse if the base is `IP`, and else the address is computed in `IP` first. The
mnemonic always accesses the base, as it was before, plus the offset. -/
theorem offset_transfer_exact (u : FloatUnit) (a : Assembler) {x : OffsetTransfer} {f : Mnemonic}
    (supported : x.mnemonic? = some f) (accepts : f.Accepts) {base : Register}
    (hb : base.number < 15) (offset : Word) :
    (x.Reaches offset ↔ ∃ w, (f (.ofOffset base offset)).encode a.condition = .ok w) ∧
    (x.Reaches offset → ∃ w,
      a.apply (.expand (x.request base offset)) = .ok (.nothing, a.append [w]) ∧
      OffsetTransfer.Performs u a.condition f base offset [] w (.ofOffset base offset)) ∧
    (¬ x.Reaches offset → base = .ip →
      a.apply (.expand (x.request base offset)) = .error (.misuse (.offsetScratch offset))) ∧
    (¬ x.Reaches offset → base ≠ .ip → ∃ setup w, setup ≠ [] ∧
      a.apply (.expand (x.request base offset)) = .ok (.nothing, a.append (setup ++ [w])) ∧
      OffsetTransfer.Performs u a.condition f base offset setup w (.ofOffset .ip 0)) := by
  refine ⟨x.reaches_iff supported accepts hb, ?_, ?_, ?_⟩
  · intro reaches
    obtain ⟨w, spelled, performs⟩ := x.performs_of_reaches supported accepts hb reaches
    exact ⟨w, Sequence.apply_expand spelled, performs⟩
  · rintro far rfl
    exact Sequence.apply_expand_error (x.words_of_base_ip supported accepts far)
  · intro far free
    obtain ⟨setup, w, some, spelled, performs⟩ :=
      x.performs_of_not_reaches supported accepts hb far free
    exact ⟨setup, w, some, Sequence.apply_expand spelled, performs⟩

/-- The least offset goes through `IP`. -/
theorem store_at_least_offset : ∃ setup w, setup ≠ [] ∧
    (Assembler.start (.near .full)).apply (.expand (.storeOffset .byte .r0 .sp 0x80000000)) =
      .ok (.nothing, (Assembler.start (.near .full)).append (setup ++ [w])) ∧
    OffsetTransfer.Performs .reference .al (fun a ↦ .core (.transfer false true .r0 a)) .sp
      0x80000000 setup w (.ofOffset .ip 0) := by
  have accepts : Mnemonic.Accepts fun a ↦ .core (.transfer false true .r0 a) :=
    ⟨.al, .ofOffset .sp 0, _, rfl⟩
  have far : ¬ (OffsetTransfer.store .byte .r0).Reaches 0x80000000 := by decide
  exact (offset_transfer_exact .reference (.start (.near .full)) rfl accepts (by decide) _).2.2.2
    far (by decide)

end A32Assembler
