import A32Assembler.Word

/-!
# Hexadecimal text

Three written forms, all in lower case: a word in eight digits, a number in as few digits as it
needs, and a byte sequence in two digits a byte.
-/

namespace A32Assembler

/-- The lower-case hexadecimal digits of `n`, without leading zeros. -/
def hexDigits (n : Nat) : List Char := Nat.toDigits 16 n

/-- The digits of `n`, filled up with zeros on the left to at least `width`. -/
def hexPadded (width n : Nat) : List Char :=
  List.replicate (width - (hexDigits n).length) '0' ++ hexDigits n

/-- A number in as few digits as it needs: `0x0`, `0x1fe`. -/
def hexNumber (n : Nat) : String := String.ofList ('0' :: 'x' :: hexDigits n)

/-- A word in eight digits: `0xe1a00001`. -/
def Word.hex (w : Word) : String := String.ofList ('0' :: 'x' :: hexPadded 8 w.toNat)

/-- A byte sequence in two digits a byte, without a mark in front: `2a00a0e3`. -/
def hexBytes (bs : List Byte) : String := String.ofList (bs.flatMap fun b ↦ hexPadded 2 b.toNat)

end A32Assembler
