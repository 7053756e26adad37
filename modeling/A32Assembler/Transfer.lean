import A32Assembler.Word

/-!
# Shapes of a memory transfer

How wide a transferred value is, and how the address is formed: the indexing of a single transfer
and the direction of a block transfer. Both are spelled by the bits P (24), U (23) and W (21) of the
instruction.
-/

namespace A32Assembler

/-- Width and signedness of a transferred value; also the lane width of a vector operation. -/
inductive OperandSize
  | byte | unsignedByte | halfword | unsignedHalfword | word | unsignedWord | wordPair
  | single | double
deriving DecidableEq

namespace OperandSize

/-- The name used in requests and diagnostics. -/
def name : OperandSize → String
  | byte => "Byte" | unsignedByte => "UnsignedByte" | halfword => "Halfword"
  | unsignedHalfword => "UnsignedHalfword" | word => "Word" | unsignedWord => "UnsignedWord"
  | wordPair => "WordPair" | single => "SWord" | double => "DWord"

/-- All sizes. -/
def all : List OperandSize :=
  [byte, unsignedByte, halfword, unsignedHalfword, word, unsignedWord, wordPair, single, double]

/-- The size with a given name. -/
def ofName? (s : String) : Option OperandSize := all.find? (·.name = s)

/-- The two-bit field for integer lanes of this width: the logarithm of the width in bytes. -/
def laneBits : OperandSize → BitVec 2
  | byte | unsignedByte => 0
  | halfword | unsignedHalfword => 1
  | word | unsignedWord | single => 2
  | wordPair | double => 3

/-- Whether one load of this size reaches a given distance from its base register. -/
def LoadReaches (size : OperandSize) (magnitude : Word) : Prop :=
  match size with
  | byte | halfword | unsignedHalfword | wordPair => magnitude < 256
  | unsignedByte | word | unsignedWord => magnitude < 4096
  | single | double => magnitude < 1024 ∧ magnitude % 4 = 0

/-- Whether one store of this size reaches a given distance. Signedness does not matter to a store,
so a signed byte has the reach of an unsigned one. -/
def StoreReaches (size : OperandSize) (magnitude : Word) : Prop :=
  match size with
  | halfword | unsignedHalfword | wordPair => magnitude < 256
  | byte | unsignedByte | word | unsignedWord => magnitude < 4096
  | single | double => magnitude < 1024 ∧ magnitude % 4 = 0

/-- The reach is computed size by size. -/
instance (size : OperandSize) (m : Word) : Decidable (size.LoadReaches m) := by
  cases size <;> unfold LoadReaches <;> infer_instance

/-- So is the reach of a store. -/
instance (size : OperandSize) (m : Word) : Decidable (size.StoreReaches m) := by
  cases size <;> unfold StoreReaches <;> infer_instance

end OperandSize

/-- When the base register of a single transfer is updated. -/
inductive Indexing
  /-- `[base, #offset]`: the base keeps its value. -/
  | offset
  /-- `[base, #offset]!`: the base becomes the address. -/
  | preIndex
  /-- `[base], #offset`: the base itself is the address and is moved afterwards. -/
  | postIndex
deriving DecidableEq

/-- Indexing of a single transfer together with the direction of its offset. -/
structure AddressMode where
  indexing : Indexing
  /-- The offset is subtracted. -/
  down : Bool
deriving DecidableEq

namespace AddressMode

/-- Plain offset addressing upwards. -/
def offset : AddressMode := ⟨.offset, false⟩

/-- The same indexing in the other direction. -/
def negated (m : AddressMode) : AddressMode := { m with down := !m.down }

/-- The bits P, U and W. -/
def bits (m : AddressMode) : Word :=
  Word.flag 24 (m.indexing != .postIndex) ||| Word.flag 23 (!m.down) |||
    Word.flag 21 (m.indexing = .preIndex)

/-- The name used in requests and answers: downward modes start with `Neg`. -/
def name (m : AddressMode) : String :=
  (if m.down then "Neg" else "") ++
    match m.indexing with
    | .offset => "Offset"
    | .preIndex => "PreIndex"
    | .postIndex => "PostIndex"

/-- All modes. -/
def all : List AddressMode :=
  [false, true].flatMap fun down ↦
    [⟨.offset, down⟩, ⟨.preIndex, down⟩, ⟨.postIndex, down⟩]

/-- The mode with a given name. -/
def ofName? (s : String) : Option AddressMode := all.find? (·.name = s)

end AddressMode

/-- Direction of a block transfer. -/
structure BlockMode where
  /-- The base moves before each access instead of after it. -/
  before : Bool
  /-- The base moves upwards. -/
  up : Bool
  /-- The base register receives the final address. -/
  writeBack : Bool
deriving DecidableEq

namespace BlockMode

/-- Increment after, with the base updated: pops from a full descending stack. -/
def popping : BlockMode := ⟨false, true, true⟩

/-- Decrement before, with the base updated: pushes onto a full descending stack. -/
def pushing : BlockMode := ⟨true, false, true⟩

/-- The bits P, U and W. -/
def bits (m : BlockMode) : Word :=
  Word.flag 24 m.before ||| Word.flag 23 m.up ||| Word.flag 21 m.writeBack

/-- The two letters of the mnemonic, with `W` for write-back. -/
def name (m : BlockMode) : String :=
  (if m.up then "I" else "D") ++ (if m.before then "b" else "a") ++
    (if m.writeBack then "W" else "")

/-- All modes. -/
def all : List BlockMode :=
  [false, true].flatMap fun writeBack ↦ [false, true].flatMap fun before ↦
    [false, true].map fun up ↦ ⟨before, up, writeBack⟩

/-- The mode with a given name. -/
def ofName? (s : String) : Option BlockMode := all.find? (·.name = s)

/-- The VFP block transfers know upwards after (with or without write-back) and downwards before
with write-back. -/
def ServesVfp (m : BlockMode) : Prop :=
  (m.before = false ∧ m.up = true) ∨ m = pushing

/-- Whether a mode serves a VFP transfer can be computed from its bits. -/
instance (m : BlockMode) : Decidable m.ServesVfp := by unfold ServesVfp; infer_instance

end BlockMode

end A32Assembler
