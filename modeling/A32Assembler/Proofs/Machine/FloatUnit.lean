import A32Assembler.Word

/-!
# The floating-point unit

What the machine leaves to its VFP unit: conversions between 32-bit integers and doubles, and the
division of doubles, all on bit patterns.
-/

namespace A32Assembler.Machine

/-- The operations of a VFP unit. -/
structure FloatUnit where
  /-- The double of a signed or an unsigned integer. -/
  ofInteger (signed : Bool) (x : Word) : Doubleword
  divide (x y : Doubleword) : Doubleword
  /-- The integer of a double, signed or unsigned, rounded toward zero. -/
  toInteger (signed : Bool) (x : Doubleword) : Word

end A32Assembler.Machine
