/-!
# White space

The characters with the Unicode property White_Space, and the cuts of a text that go by it: trimming
and splitting into words.
-/

namespace A32Assembler.Text

/-- The ranges of code points with the property White_Space, both ends included. -/
def blankRanges : List (Nat × Nat) :=
  [(0x09, 0x0D), (0x20, 0x20), (0x85, 0x85), (0xA0, 0xA0), (0x1680, 0x1680), (0x2000, 0x200A),
    (0x2028, 0x2029), (0x202F, 0x202F), (0x205F, 0x205F), (0x3000, 0x3000)]

/-- Whether a character is white space. -/
def isBlank (c : Char) : Bool :=
  blankRanges.any fun (first, last) ↦ decide (first ≤ c.toNat) && decide (c.toNat ≤ last)

/-- A text without the white space at its two ends. -/
def trim (cs : List Char) : List Char :=
  ((cs.dropWhile isBlank).reverse.dropWhile isBlank).reverse

/-- The pieces of `cs` between the characters that satisfy `p`, empty ones included. -/
def splitAll (p : Char → Bool) : List Char → List (List Char)
  | [] => [[]]
  | c :: cs =>
    match p c, splitAll p cs with
    | true, pieces => [] :: pieces
    | false, piece :: pieces => (c :: piece) :: pieces
    | false, [] => [[c]]

/-- The words of a text: its longest runs without white space. -/
def words (cs : List Char) : List (List Char) :=
  (splitAll isBlank cs).filter fun piece ↦ !piece.isEmpty

/-- The lines of a text. A line feed ends a line and takes a carriage return before it along; what
follows the last line feed is a line of its own unless it is empty. -/
def lines (cs : List Char) : List (List Char) :=
  let pieces := splitAll (· = '\n') cs
  let ended := pieces.dropLast.map fun line ↦
    if line.getLast? = some '\r' then line.dropLast else line
  match pieces.getLast? with
  | some (c :: rest) => ended ++ [c :: rest]
  | _ => ended

end A32Assembler.Text
