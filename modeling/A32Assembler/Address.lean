import A32Assembler.Operand

/-!
# Addresses of single transfers

A base register with a constant or register offset. A constant is kept as its magnitude; which way
it goes is part of the mode. The three families of transfers write an address in three ways, and
each refuses what it has no room for.
-/

namespace A32Assembler

/-- The distance from the base register. -/
inductive Displacement
  | immediate (magnitude : Word)
  /-- `rm` shifted by the amount that a five-bit field stands for. -/
  | register (rm : Register) (shift : Shift) (field : BitVec 5)
deriving DecidableEq

/-- The address of a single transfer. -/
structure Address where
  base : Register
  displacement : Displacement
  mode : AddressMode
deriving DecidableEq

/-- The distance of a signed offset from zero. -/
def magnitude (offset : Word) : Word := if offset.msb then -offset else offset

namespace Address

/-- A base register and a signed offset. A negative offset turns the mode around. -/
def indexed (base : Register) (offset : Word) (mode : AddressMode) : Address :=
  { base
    displacement := .immediate (magnitude offset)
    mode := if offset.msb then mode.negated else mode }

/-- `[base, #offset]`. -/
def ofOffset (base : Register) (offset : Word) : Address := indexed base offset .offset

/-- `[base, rm]`; the mode says whether `rm` is added or subtracted. -/
def ofRegister (base rm : Register) (mode : AddressMode) : Address :=
  ⟨base, .register rm .lsl 0, mode⟩

/-- `[base, rm, shift #amount]`. -/
def ofShifted (base rm : Register) (shift : Shift) (amount : Nat) (mode : AddressMode) :
    Except Refusal Address := do
  let field ← shift.amountField amount
  return ⟨base, .register rm shift field, mode⟩

/-- The signed offset of an address with a constant. -/
def immediateOffset? (a : Address) : Option Word :=
  match a.displacement with
  | .immediate m => some (if a.mode.down then -m else m)
  | .register .. => none

/-- The address bits of a word or byte transfer: P, U, W, the base in bits 19-16 and twelve bits of
offset; bit 25 marks a register offset. -/
def encodingWord (a : Address) : Except Misuse Word := do
  let offset ← match a.displacement with
    | .immediate m => do
      require (m < 4096) (.wordOffset m)
      pure m
    | .register rm shift field => do
      let m ← rm.code
      pure (Word.flag 25 true ||| Word.place 7 field ||| Word.place 5 shift.bits |||
        Word.place 0 m)
  let base ← a.base.code
  return a.mode.bits ||| Word.place 16 base ||| offset

/-- The address bits of a halfword, signed or doubleword transfer: P, U, W, the base, and an 8-bit
constant in two halves, marked by bit 22, or an unshifted register. -/
def encodingMisc (a : Address) : Except Misuse Word := do
  let offset ← match a.displacement with
    | .immediate m => do
      require (m < 256) (.miscOffset m)
      pure (Word.flag 22 true ||| Word.place 8 (m >>> 4) ||| Word.place 0 (m &&& 0xf))
    | .register rm _ field => do
      require (field = 0) .miscShift
      let m ← rm.code
      pure (Word.place 0 m)
  let base ← a.base.code
  return a.mode.bits ||| Word.place 16 base ||| offset

/-- The address bits of a VFP transfer: U, the base, and an 8-bit count of words. -/
def encodingVfp (a : Address) : Except Misuse Word := do
  require (a.mode.indexing = .offset) .vfpIndexing
  let m ← match a.displacement with
    | .immediate m => pure m
    | .register .. => throw .vfpRegisterOffset
  require (m % 4 = 0) (.vfpAlignment m)
  require (m < 1024) (.vfpOffset m)
  let base ← a.base.code
  return Word.flag 23 (!a.mode.down) ||| Word.place 16 base ||| Word.place 0 (m >>> 2)

end Address

/-- Whether one load of a size reaches a signed offset. -/
def OperandSize.CanLoad (size : OperandSize) (offset : Word) : Prop :=
  size.LoadReaches (magnitude offset)

/-- Whether one store of a size reaches a signed offset. -/
def OperandSize.CanStore (size : OperandSize) (offset : Word) : Prop :=
  size.StoreReaches (magnitude offset)

/-- The reach of a load can be computed. -/
instance (size : OperandSize) (offset : Word) : Decidable (size.CanLoad offset) := by
  unfold OperandSize.CanLoad; infer_instance

/-- The reach of a store can be computed. -/
instance (size : OperandSize) (offset : Word) : Decidable (size.CanStore offset) := by
  unfold OperandSize.CanStore; infer_instance

end A32Assembler
