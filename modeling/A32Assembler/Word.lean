/-!
# Machine words

An instruction is one 32-bit word. This module fixes the widths the assembler works with, places
bit fields inside a word, and cuts a word into the four bytes it occupies in memory, lowest first.
-/

namespace A32Assembler

/-- Eight bits: the unit of memory, and the width of a register number as written. -/
abbrev Byte := BitVec 8

/-- Sixteen bits: a register list, or the immediate of a wide move. -/
abbrev Halfword := BitVec 16

/-- Thirty-two bits: one instruction, or the contents of a core register. -/
abbrev Word := BitVec 32

/-- Sixty-four bits: the pattern of a double-precision number. -/
abbrev Doubleword := BitVec 64

namespace Word

/-- The field `x` moved up so that its lowest bit is bit `lsb`; what passes bit 31 is dropped. -/
def place {w : Nat} (lsb : Nat) (x : BitVec w) : Word := x.setWidth 32 <<< lsb

/-- A one-bit field at bit `lsb`. -/
def flag (lsb : Nat) (b : Bool) : Word := place lsb (BitVec.ofBool b)

/-- The four bytes of a word in memory order. -/
def bytes (w : Word) : List Byte :=
  [w.extractLsb' 0 8, w.extractLsb' 8 8, w.extractLsb' 16 8, w.extractLsb' 24 8]

/-- The word whose bytes in memory order are given. -/
def ofBytes (b0 b1 b2 b3 : Byte) : Word :=
  place 0 b0 ||| place 8 b1 ||| place 16 b2 ||| place 24 b3

/-- The words spelled by a byte sequence; up to three bytes left at the end spell none. -/
def listOfBytes : List Byte → List Word
  | b0 :: b1 :: b2 :: b3 :: rest => ofBytes b0 b1 b2 b3 :: listOfBytes rest
  | _ => []

/-- Bit `i` of a placed field is bit `i - lsb` of the field. -/
theorem getLsbD_place {w : Nat} (lsb : Nat) (x : BitVec w) (i : Nat) :
    (place lsb x).getLsbD i = (decide (i < 32) && decide (lsb ≤ i) && x.getLsbD (i - lsb)) := by
  simp only [place, BitVec.getLsbD_shiftLeft, BitVec.getLsbD_setWidth]
  by_cases hi : i < 32
  · have hd : i - lsb < 32 := by omega
    by_cases hl : lsb ≤ i
    · simp [hi, hl, hd, Nat.not_lt.mpr hl]
    · simp [hi, hl, Nat.lt_of_not_le hl]
  · simp [hi]

/-- A word occupies four bytes. -/
theorem length_bytes (w : Word) : w.bytes.length = 4 := rfl

/-- Joining the bytes of a word gives the word back. -/
theorem ofBytes_extract (w : Word) :
    ofBytes (w.extractLsb' 0 8) (w.extractLsb' 8 8) (w.extractLsb' 16 8) (w.extractLsb' 24 8)
      = w := by
  apply BitVec.eq_of_getLsbD_eq
  intro i hi
  simp only [ofBytes, BitVec.getLsbD_or, getLsbD_place, BitVec.getLsbD_extractLsb']
  grind

/-- Words written out one after another are read back as the same words. -/
theorem listOfBytes_flatMap_bytes (ws : List Word) : listOfBytes (ws.flatMap bytes) = ws := by
  induction ws with
  | nil => rfl
  | cons w ws ih => simp [bytes, listOfBytes, ofBytes_extract] at ih ⊢; exact ih

/-- Four bytes spell one word. -/
theorem length_listOfBytes (bs : List Byte) : (listOfBytes bs).length = bs.length / 4 := by
  fun_induction listOfBytes bs with
  | case1 b0 b1 b2 b3 rest ih =>
    rw [List.length_cons, ih]
    simp only [List.length_cons]
    omega
  | case2 bs short =>
    match bs, short with
    | [], _ => rfl
    | [_], _ => simp
    | [_, _], _ => simp
    | [_, _, _], _ => simp
    | b0 :: b1 :: b2 :: b3 :: rest, short => exact absurd rfl (short b0 b1 b2 b3 rest)

/-- Word `i` of a byte sequence is spelled by the four bytes from `4 * i` on. -/
theorem getElem_listOfBytes (bs : List Byte) (i : Nat) (h : 4 * i + 4 ≤ bs.length)
    (hi : i < (listOfBytes bs).length) :
    (listOfBytes bs)[i] = ofBytes bs[4 * i] bs[4 * i + 1] bs[4 * i + 2] bs[4 * i + 3] := by
  induction i generalizing bs with
  | zero =>
    match bs, h with
    | [], h => simp at h
    | [_], h => simp at h
    | [_, _], h => simp at h
    | [_, _, _], h => simp at h
    | _ :: _ :: _ :: _ :: _, _ => rfl
  | succ i ih =>
    match bs, h with
    | [], h => simp at h
    | [_], h => simp at h
    | [_, _], h => simp at h
    | [_, _, _], h => simp at h
    | _ :: _ :: _ :: _ :: rest, h =>
      simp only [List.length_cons] at h
      exact ih rest (by omega) (by rw [length_listOfBytes]; omega)

end Word

end A32Assembler
