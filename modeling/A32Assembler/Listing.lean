import A32Assembler.Error

/-!
# Listings

Finished code as a list of instruction words, detached from the assembler that produced it.
-/

namespace A32Assembler

/-- Instruction words in order. -/
structure Listing where
  words : List Word
deriving DecidableEq

namespace Listing

/-- No instructions. -/
def empty : Listing := ⟨[]⟩

/-- The number of instructions. -/
def length (l : Listing) : Nat := l.words.length

/-- One more instruction at the end. -/
def push (l : Listing) (w : Word) : Listing := ⟨l.words ++ [w]⟩

/-- The instructions of one listing and then those of another. -/
instance : Append Listing := ⟨fun a b ↦ ⟨a.words ++ b.words⟩⟩

/-- The bytes of all instructions in memory order. -/
def bytes (l : Listing) : List Byte := l.words.flatMap Word.bytes

/-- The size in bytes. -/
def size (l : Listing) : Nat := 4 * l.length

/-- The instruction at an index, if there is one. -/
def get? (l : Listing) (index : Nat) : Option Word := l.words[index]?

/-- The instruction at an index that is known to have one. -/
def entry (l : Listing) (index : Nat) : Except Misuse Word :=
  match l.get? index with
  | some w => .ok w
  | none => .error (.noEntry index l.length)

/-- The instructions from last to first. -/
def reversed (l : Listing) : Listing := ⟨l.words.reverse⟩

/-- The size counts the bytes. -/
theorem length_bytes (l : Listing) : l.bytes.length = l.size := by
  obtain ⟨ws⟩ := l
  simp only [bytes, size, length]
  induction ws with
  | nil => rfl
  | cons w ws ih => simp only [List.flatMap_cons, List.length_append, ih, Word.length_bytes,
      List.length_cons]; omega

end Listing

end A32Assembler
