import A32Assembler.Assembler
import A32Assembler.Proofs.Word.Field

/-!
# Buffers as lists of words

A code buffer keeps bytes, and a position in it is a distance in bytes. Seen from outside it is a
list of words all the same. Beside the buffer stands a machine that keeps nothing but such a list:
emitting appends to it, storing replaces one entry, and bytes are computed when they are asked for.
Whatever calls are made, both give the same answers and fail at the same call for the same reason,
and the words the buffer spells are the list the machine keeps.
-/

namespace A32Assembler

/-! ### Bytes of words -/

/-- The bytes of a word from the least significant one on: the digits of its value in base 256. -/
def Word.littleEndian (w : Word) : List Byte :=
  (List.range 4).map fun k ↦ BitVec.ofNat 8 (w.toNat / 256 ^ k)

private theorem extractLsb'_eq_digit (w : Word) (k : Nat) :
    w.extractLsb' (8 * k) 8 = BitVec.ofNat 8 (w.toNat / 256 ^ k) := by
  apply BitVec.eq_of_toNat_eq
  rw [BitVec.extractLsb'_toNat, BitVec.toNat_ofNat, Nat.shiftRight_eq_div_pow, Nat.pow_mul]

/-- Memory order is least significant byte first. -/
theorem Word.bytes_eq_littleEndian : Word.bytes = Word.littleEndian := by
  funext w
  simp only [littleEndian, ← extractLsb'_eq_digit]
  rfl

/-- Cutting a word into bytes gives back the bytes it was joined from. -/
theorem Word.bytes_ofBytes (b0 b1 b2 b3 : Byte) :
    (Word.ofBytes b0 b1 b2 b3).bytes = [b0, b1, b2, b3] := by
  simp [bytes, ofBytes, BitVec.extractLsb'_or]

/-- Whole words, read from bytes and written out again, are the same bytes. -/
theorem Word.flatMap_bytes_listOfBytes (bs : List Byte) (whole : bs.length % 4 = 0) :
    (Word.listOfBytes bs).flatMap Word.bytes = bs := by
  fun_induction Word.listOfBytes bs with
  | case1 b0 b1 b2 b3 rest ih =>
    simp only [List.length_cons] at whole
    rw [List.flatMap_cons, bytes_ofBytes, ih (by omega)]
    rfl
  | case2 bs short =>
    obtain _ | ⟨b0, _ | ⟨b1, _ | ⟨b2, _ | ⟨b3, rest⟩⟩⟩⟩ := bs
    · rfl
    · simp at whole
    · simp at whole
    · simp at whole
    · exact absurd rfl (short b0 b1 b2 b3 rest)

/-- The bytes of a buffer are those of its words. -/
theorem CodeBuffer.flatMap_bytes_words (b : CodeBuffer) :
    b.words.flatMap Word.bytes = b.bytes.toList :=
  Word.flatMap_bytes_listOfBytes b.bytes.toList (by simpa using b.size_mod_four)

/-! ### Runs of calls -/

section Runs

variable {σ τ κ α ε : Type}

/-- The answers to calls made one after another, and the state after them. The first call that
fails ends the run. -/
def runCalls (step : σ → κ → Except ε (α × σ)) : σ → List κ → Except ε (List α × σ)
  | s, [] => .ok ([], s)
  | s, c :: cs => do
    let (answer, t) ← step s c
    let (answers, u) ← runCalls step t cs
    return (answer :: answers, u)

/-- If one call is answered alike by a state and by what is seen of it, so is every run. -/
theorem runCalls_view {step : σ → κ → Except ε (α × σ)} {step' : τ → κ → Except ε (α × τ)}
    (view : σ → τ) (alike : ∀ s c, (step s c).map (Prod.map id view) = step' (view s) c)
    (s : σ) (cs : List κ) :
    (runCalls step s cs).map (Prod.map id view) = runCalls step' (view s) cs := by
  induction cs generalizing s with
  | nil => rfl
  | cons c cs ih =>
    rw [runCalls, runCalls, ← alike]
    cases step s c with
    | error e => rfl
    | ok r =>
      obtain ⟨answer, t⟩ := r
      simp only [Except.map, bind, Except.bind, Prod.map_apply, id, ← ih t]
      cases runCalls step t cs with
      | error e => rfl
      | ok rest => rfl

end Runs

/-! ### The two machines -/

/-- What can be asked of a code buffer. -/
inductive BufferCall
  /-- One more word at the end. -/
  | emit (w : Word)
  /-- Another word at a position. -/
  | store (position : Nat) (w : Word)
  /-- The word at a position. -/
  | load (position : Nat)
  /-- Everything forgotten. -/
  | clear
  | size
  | words
  | bytes

/-- What a code buffer answers. -/
inductive BufferAnswer
  | nothing
  | position (p : Nat)
  | word (w : Word)
  | size (n : Nat)
  | words (ws : List Word)
  | bytes (bs : List Byte)

/-- What a buffer answers to a call, and the buffer after it. Emitting answers the position of the
new word. -/
def CodeBuffer.step (b : CodeBuffer) : BufferCall → Except Misuse (BufferAnswer × CodeBuffer)
  | .emit w => .ok (.position b.size, b.emit w)
  | .store position w => do
    return (.nothing, ← b.store position w)
  | .load position => do
    return (.word (← b.load position), b)
  | .clear => .ok (.nothing, .empty)
  | .size => .ok (.size b.size, b)
  | .words => .ok (.words b.words, b)
  | .bytes => .ok (.bytes b.bytes.toList, b)

namespace WordList

/-- The entry at a position. The position must be aligned, the word may not end beyond every
position, and it must end inside the list. -/
def entry (ws : List Word) (position : Nat) : Except Misuse Word :=
  if position % 4 ≠ 0 then .error (.misaligned position)
  else if 2 ^ 64 ≤ position + 4 then .error (.overflow .addition)
  else if h : position + 4 ≤ 4 * ws.length then .ok ws[position / 4]
  else .error (.outside position (4 * ws.length))

/-- The list has an entry at the aligned positions of its words. -/
theorem entry_eq_ok {ws : List Word} {position : Nat} {w : Word} :
    entry ws position = .ok w ↔
      position % 4 = 0 ∧ position + 4 < 2 ^ 64 ∧ ws[position / 4]? = some w := by
  unfold entry
  split_ifs with odd far inside
  · simp [odd]
  · simp [-Nat.reducePow, Nat.not_lt.mpr far]
  · rw [List.getElem?_eq_getElem (by omega)]
    simp [-Nat.reducePow, Nat.lt_of_not_le far, Decidable.not_not.mp odd]
  · rw [List.getElem?_eq_none (by omega)]
    simp

/-- What a list of words answers to a call, and the list after it. -/
def step (ws : List Word) : BufferCall → Except Misuse (BufferAnswer × List Word)
  | .emit w => .ok (.position (4 * ws.length), ws ++ [w])
  | .store position w => do
    let _ ← entry ws position
    return (.nothing, ws.set (position / 4) w)
  | .load position => do
    return (.word (← entry ws position), ws)
  | .clear => .ok (.nothing, [])
  | .size => .ok (.size (4 * ws.length), ws)
  | .words => .ok (.words ws, ws)
  | .bytes => .ok (.bytes (ws.flatMap Word.littleEndian), ws)

end WordList

namespace CodeBuffer

variable {b : CodeBuffer} {position : Nat}

/-- A position is turned down for the reason the list turns it down for. -/
theorem locate_eq_error {m : Misuse} :
    b.locate position = .error m ↔ WordList.entry b.words position = .error m := by
  unfold locate WordList.entry
  rw [positionLimit, show (2 : Nat) ^ 64 = 0x10000000000000000 from rfl]
  simp only [length_words, size]
  split_ifs <;> simp only [Except.error.injEq]

/-- Reading a position reads the entry there. -/
theorem load_eq_entry (position : Nat) : b.load position = WordList.entry b.words position := by
  cases found : b.locate position with
  | ok p =>
    obtain ⟨p, rfl, _⟩ := p
    obtain ⟨w, loaded⟩ : ∃ w, b.load p = .ok w := ⟨_, by rw [load, found]; rfl⟩
    rw [loaded, WordList.entry_eq_ok.mpr (load_eq_ok.mp loaded)]
  | error m =>
    rw [load, found, locate_eq_error.mp found]
    rfl

/-- Writing a position replaces the entry there, and fails as reading it does. -/
theorem store_map_words (position : Nat) (w : Word) :
    (b.store position w).map words =
      (WordList.entry b.words position).map fun _ ↦ b.words.set (position / 4) w := by
  rw [← load_eq_entry]
  cases found : b.locate position with
  | ok p =>
    obtain ⟨p, rfl, _⟩ := p
    obtain ⟨b', stored⟩ : ∃ b', b.store p w = .ok b' := ⟨_, by rw [store, found]; rfl⟩
    obtain ⟨v, loaded⟩ : ∃ v, b.load p = .ok v := ⟨_, by rw [load, found]; rfl⟩
    rw [stored, loaded, Except.map, Except.map, words_store stored]
  | error m =>
    rw [store, load, found]
    rfl

/-- A call is answered by a buffer as by the list of its words. -/
theorem step_words (b : CodeBuffer) (c : BufferCall) :
    (b.step c).map (Prod.map id words) = WordList.step b.words c := by
  cases c with
  | emit w => simp [step, WordList.step, Except.map, length_words, words_emit]
  | store position w =>
    calc (b.step (.store position w)).map (Prod.map id words)
        = ((b.store position w).map words).map (.nothing, ·) := by
          simp only [step]
          cases b.store position w <;> rfl
      _ = ((WordList.entry b.words position).map fun _ ↦ b.words.set (position / 4) w).map
            (.nothing, ·) := by rw [store_map_words]
      _ = WordList.step b.words (.store position w) := by
          simp only [WordList.step]
          cases WordList.entry b.words position <;> rfl
  | load position =>
    simp only [step, WordList.step, load_eq_entry]
    cases WordList.entry b.words position <;> rfl
  | clear => rfl
  | size => simp [step, WordList.step, Except.map, length_words]
  | words => rfl
  | bytes =>
    simp only [step, WordList.step, ← flatMap_bytes_words, Word.bytes_eq_littleEndian]
    rfl

end CodeBuffer

/-- A fresh buffer and an empty list of words answer every run of calls alike, call by call, fail at
the same call for the same reason, and end in a buffer that spells the list. The bytes of an
assembler's listing are the bytes in its buffer. -/
theorem buffer_acts_as_words :
    (∀ cs : List BufferCall,
      (runCalls CodeBuffer.step .empty cs).map (Prod.map id CodeBuffer.words) =
        runCalls WordList.step [] cs) ∧
    ∀ a : Assembler, a.listing.bytes = a.buffer.bytes.toList :=
  ⟨runCalls_view CodeBuffer.words CodeBuffer.step_words .empty,
    fun a ↦ a.buffer.flatMap_bytes_words⟩

end A32Assembler
