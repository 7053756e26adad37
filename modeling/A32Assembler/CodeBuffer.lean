import A32Assembler.Error

/-!
# Code buffers

The bytes of the code, in memory order. Code grows by one word at the end; a word that is already
there can be read and overwritten by its position, which is its distance in bytes from the start.
The bytes are observed as the list of words they spell.
-/

namespace A32Assembler

/-- A sequence of instruction words in memory. -/
structure CodeBuffer where
  bytes : Array Byte
  /-- Only whole words are stored. -/
  size_mod_four : bytes.size % 4 = 0

namespace CodeBuffer

/-- No code. -/
def empty : CodeBuffer := ⟨#[], rfl⟩

/-- Size in bytes; also the position of the next word. -/
def size (b : CodeBuffer) : Nat := b.bytes.size

/-- The words the bytes spell. -/
def words (b : CodeBuffer) : List Word := Word.listOfBytes b.bytes.toList

/-- One more word at the end. -/
def emit (b : CodeBuffer) (w : Word) : CodeBuffer where
  bytes := b.bytes ++ w.bytes.toArray
  size_mod_four := by
    have h := b.size_mod_four
    simp only [Array.size_append, List.size_toArray, Word.length_bytes]
    omega

/-- More words at the end. -/
def emitAll (b : CodeBuffer) (ws : List Word) : CodeBuffer := ws.foldl emit b

/-- The first number that is no position. -/
def positionLimit : Nat := 0x10000000000000000

/-- A position holds a word if it is aligned and the word ends inside the buffer. The check fails
with the first of these that does not hold; a word that would end beyond every position is an
overflow. -/
def locate (b : CodeBuffer) (position : Nat) :
    Except Misuse { p : Nat // p = position ∧ p + 4 ≤ b.bytes.size } :=
  if position % 4 ≠ 0 then .error (.misaligned position)
  else if positionLimit ≤ position + 4 then .error (.overflow .addition)
  else if h : position + 4 ≤ b.bytes.size then .ok ⟨position, rfl, h⟩
  else .error (.outside position b.bytes.size)

/-- The word at a position. -/
def load (b : CodeBuffer) (position : Nat) : Except Misuse Word := do
  let ⟨p, _, h⟩ ← b.locate position
  return Word.ofBytes b.bytes[p] b.bytes[p + 1] b.bytes[p + 2] b.bytes[p + 3]

/-- The bytes with those of `w` in place of the four from `p` on. -/
def overwrite (bs : Array Byte) (p : Nat) (w : Word) : Array Byte :=
  (((bs.setIfInBounds p (w.extractLsb' 0 8)).setIfInBounds (p + 1)
    (w.extractLsb' 8 8)).setIfInBounds (p + 2) (w.extractLsb' 16 8)).setIfInBounds (p + 3)
    (w.extractLsb' 24 8)

/-- Overwriting keeps the number of bytes. -/
theorem size_overwrite (bs : Array Byte) (p : Nat) (w : Word) :
    (overwrite bs p w).size = bs.size := by
  simp [overwrite]

/-- Another word at a position. -/
def store (b : CodeBuffer) (position : Nat) (w : Word) : Except Misuse CodeBuffer := do
  let ⟨p, _⟩ ← b.locate position
  return {
    bytes := overwrite b.bytes p w
    size_mod_four := by rw [size_overwrite]; exact b.size_mod_four }

/-- A buffer without bytes spells no word. -/
theorem words_empty : empty.words = [] := rfl

private theorem listOfBytes_append (bs : List Byte) (w : Word) (h : bs.length % 4 = 0) :
    Word.listOfBytes (bs ++ w.bytes) = Word.listOfBytes bs ++ [w] := by
  fun_induction Word.listOfBytes bs with
  | case1 b0 b1 b2 b3 rest ih =>
    simp only [List.length_cons] at h
    simp [Word.listOfBytes, ih (by omega)]
  | case2 bs short =>
    obtain _ | ⟨b0, _ | ⟨b1, _ | ⟨b2, _ | ⟨b3, rest⟩⟩⟩⟩ := bs
    · simpa using Word.listOfBytes_flatMap_bytes [w]
    · simp at h
    · simp at h
    · simp at h
    · exact absurd rfl (short b0 b1 b2 b3 rest)

/-- Emitting appends one word. -/
theorem words_emit (b : CodeBuffer) (w : Word) : (b.emit w).words = b.words ++ [w] := by
  have h : b.bytes.toList.length % 4 = 0 := by simpa using b.size_mod_four
  simpa [emit, words] using listOfBytes_append b.bytes.toList w h

/-- Emitting several words appends them in order. -/
theorem words_emitAll (b : CodeBuffer) (ws : List Word) : (b.emitAll ws).words = b.words ++ ws := by
  induction ws generalizing b with
  | nil => simp [emitAll]
  | cons w ws ih =>
    have step := ih (b.emit w)
    rw [words_emit, List.append_assoc] at step
    exact step

/-- The buffer has four bytes for each word. -/
theorem length_words (b : CodeBuffer) : 4 * b.words.length = b.size := by
  have h := b.size_mod_four
  rw [words, Word.length_listOfBytes, Array.length_toList, size]
  omega

/-- Word `i` is spelled by the bytes from `4 * i` on. -/
theorem getElem_words (b : CodeBuffer) (i : Nat) (h : 4 * i + 4 ≤ b.bytes.size)
    (hi : i < b.words.length) :
    b.words[i] =
      Word.ofBytes b.bytes[4 * i] b.bytes[4 * i + 1] b.bytes[4 * i + 2] b.bytes[4 * i + 3] :=
  Word.getElem_listOfBytes b.bytes.toList i h hi

/-- The check of a position succeeds exactly when it holds a word. -/
theorem locate_eq_ok {b : CodeBuffer} {position : Nat}
    {p : { p : Nat // p = position ∧ p + 4 ≤ b.bytes.size }} :
    b.locate position = .ok p ↔ position % 4 = 0 ∧ position + 4 < positionLimit := by
  obtain ⟨p, rfl, fits⟩ := p
  unfold locate
  split
  · simp; omega
  · split
    · simp; omega
    · simp; omega

/-- Reading gives the word at a position. -/
theorem load_eq_ok {b : CodeBuffer} {position : Nat} {w : Word} :
    b.load position = .ok w ↔
      position % 4 = 0 ∧ position + 4 < positionLimit ∧ b.words[position / 4]? = some w := by
  unfold load
  cases found : b.locate position with
  | ok p =>
    have place := locate_eq_ok.mp found
    obtain ⟨p, rfl, fits⟩ := p
    obtain ⟨i, rfl⟩ : ∃ i, p = 4 * i := ⟨p / 4, by omega⟩
    have long := b.length_words
    rw [size] at long
    have quot : 4 * i / 4 = i := by omega
    simp only [bind, Except.bind, pure, Except.pure, Except.ok.injEq, place, true_and, quot]
    rw [List.getElem?_eq_getElem (by omega), Option.some.injEq, getElem_words b i fits]
  | error m =>
    simp only [bind, Except.bind, reduceCtorEq, false_iff, not_and]
    intro aligned bound present
    obtain ⟨inside, -⟩ := List.getElem?_eq_some_iff.mp present
    have long := b.length_words
    rw [size] at long
    have ok := locate_eq_ok (b := b) (p := ⟨position, rfl, by omega⟩) |>.mpr ⟨aligned, bound⟩
    rw [found] at ok
    cases ok

/-- Overwriting keeps the size. -/
theorem size_store {b b' : CodeBuffer} {position : Nat} {w : Word}
    (h : b.store position w = .ok b') : b'.size = b.size := by
  unfold store at h
  cases found : b.locate position with
  | error m => simp [found, bind, Except.bind] at h
  | ok p =>
    simp only [found, bind, Except.bind, pure, Except.pure, Except.ok.injEq] at h
    subst h
    exact size_overwrite b.bytes p.1 w

private theorem getElem_overwrite (bs : Array Byte) (p : Nat) (w : Word) (k : Nat)
    (h : k < bs.size) (hk : k < (overwrite bs p w).size) :
    (overwrite bs p w)[k] =
      if p + 3 = k then w.extractLsb' 24 8 else if p + 2 = k then w.extractLsb' 16 8
      else if p + 1 = k then w.extractLsb' 8 8 else if p = k then w.extractLsb' 0 8
      else bs[k] := by
  simp only [overwrite]
  rw [Array.getElem_setIfInBounds (by simpa using h),
    Array.getElem_setIfInBounds (by simpa using h),
    Array.getElem_setIfInBounds (by simpa using h), Array.getElem_setIfInBounds h]

/-- Overwriting replaces the word at a position. -/
theorem words_store {b b' : CodeBuffer} {position : Nat} {w : Word}
    (h : b.store position w = .ok b') : b'.words = b.words.set (position / 4) w := by
  have same_size := size_store h
  unfold store at h
  cases found : b.locate position with
  | error m => simp [found, bind, Except.bind] at h
  | ok p =>
    have place := locate_eq_ok.mp found
    obtain ⟨p, rfl, fits⟩ := p
    obtain ⟨i, rfl⟩ : ∃ i, p = 4 * i := ⟨p / 4, by omega⟩
    simp only [found, bind, Except.bind, pure, Except.pure, Except.ok.injEq] at h
    have spelled : b'.bytes = overwrite b.bytes (4 * i) w := by rw [← h]
    have long := b.length_words
    have long' := b'.length_words
    rw [size] at long
    rw [same_size, size] at long'
    rw [size, size] at same_size
    rw [show 4 * i / 4 = i by omega]
    apply List.ext_getElem
    · rw [List.length_set]
      omega
    · intro j hj _
      rw [getElem_words b' j (by omega) hj, List.getElem_set]
      simp only [spelled]
      rw [getElem_overwrite _ _ _ _ (by omega) _, getElem_overwrite _ _ _ _ (by omega) _,
        getElem_overwrite _ _ _ _ (by omega) _, getElem_overwrite _ _ _ _ (by omega) _]
      by_cases same : i = j
      · subst same
        simpa using w.ofBytes_extract
      · rw [if_neg same, getElem_words b j (by omega) (by omega)]
        congr 1 <;>
          rw [if_neg (by omega), if_neg (by omega), if_neg (by omega), if_neg (by omega)]

end CodeBuffer

end A32Assembler
