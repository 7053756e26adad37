import A32Assembler.Proofs.Machine.State

/-!
# Words in data memory

A word lies in four bytes, lowest first; a block of words lies in one word after another. Addresses
wrap around. An access to a word fails unless all four of its bytes can be accessed.
-/

namespace A32Assembler.Memory

/-- The word at an address. -/
def read (m : Memory) (a : Word) : Option Word := do
  let b0 ← m a
  let b1 ← m (a + 1)
  let b2 ← m (a + 2)
  let b3 ← m (a + 3)
  return Word.ofBytes b0 b1 b2 b3

/-- The memory with the bytes of `x` from an address on. -/
def overlay (m : Memory) (a x : Word) : Memory := fun b ↦
  if b = a then some (x.extractLsb' 0 8) else if b = a + 1 then some (x.extractLsb' 8 8)
  else if b = a + 2 then some (x.extractLsb' 16 8)
  else if b = a + 3 then some (x.extractLsb' 24 8) else m b

/-- Another word at an address. -/
def write (m : Memory) (a x : Word) : Option Memory := (m.read a).map fun _ ↦ m.overlay a x

/-- A block of `n` words from an address on. -/
def readBlock (m : Memory) (a : Word) : Nat → Option (List Word)
  | 0 => some []
  | n + 1 => do
    let x ← m.read a
    let xs ← m.readBlock (a + 4) n
    return x :: xs

/-- Other words in a block. -/
def writeBlock (m : Memory) (a : Word) : List Word → Option Memory
  | [] => some m
  | x :: xs => do
    let m ← m.write a x
    m.writeBlock (a + 4) xs

/-- The addresses from `a` on, `n` of them. -/
def Range (a : Word) (n : Nat) (b : Word) : Prop := (b - a).toNat < n

/-- All bytes of a range can be accessed. -/
def Accessible (m : Memory) (a : Word) (n : Nat) : Prop := ∀ b, Range a n b → (m b).isSome

variable {m m' : Memory} {a b x : Word}

private theorem range_four : Range a 4 b ↔ b = a ∨ b = a + 1 ∨ b = a + 2 ∨ b = a + 3 := by
  unfold Range
  constructor
  · intro h
    have cases : b - a = 0 ∨ b - a = 1 ∨ b - a = 2 ∨ b - a = 3 := by bv_omega
    rcases cases with h | h | h | h
    · left; bv_omega
    · right; left; bv_omega
    · right; right; left; bv_omega
    · right; right; right; bv_omega
  · rintro (rfl | rfl | rfl | rfl) <;> bv_omega

private theorem range_head {n : Nat} (h : Range a 4 b) : Range a (4 * (n + 1)) b := by
  unfold Range at *
  omega

private theorem range_tail {n : Nat} (fits : 4 * (n + 1) ≤ 2 ^ 32) (h : Range (a + 4) (4 * n) b) :
    Range a (4 * (n + 1)) b ∧ ¬ Range a 4 b := by
  unfold Range at *
  bv_omega

/-- A word can be read exactly when its bytes can be accessed. -/
theorem isSome_read : (m.read a).isSome ↔ m.Accessible a 4 := by
  unfold Accessible
  simp only [range_four, forall_eq_or_imp, forall_eq, read]
  cases m a <;> cases m (a + 1) <;> cases m (a + 2) <;> cases m (a + 3) <;> simp

/-- Writing changes the four bytes of the word only. -/
theorem write_frame (h : m.write a x = some m') (outside : ¬ Range a 4 b) : m' b = m b := by
  obtain ⟨-, -, rfl⟩ := Option.map_eq_some_iff.mp h
  simp only [range_four, not_or] at outside
  obtain ⟨h0, h1, h2, h3⟩ := outside
  unfold overlay
  rw [if_neg h0, if_neg h1, if_neg h2, if_neg h3]

/-- Writing makes no byte inaccessible. -/
theorem write_isSome (h : m.write a x = some m') (ok : (m b).isSome) : (m' b).isSome := by
  obtain ⟨-, -, rfl⟩ := Option.map_eq_some_iff.mp h
  unfold overlay
  repeat' split
  all_goals first | rfl | exact ok

/-- A word reads back what was written to it. -/
theorem read_write (h : m.write a x = some m') : m'.read a = some x := by
  obtain ⟨-, -, rfl⟩ := Option.map_eq_some_iff.mp h
  have h1 : m.overlay a x (a + 1) = some (x.extractLsb' 8 8) := by
    unfold overlay
    rw [if_neg (by bv_omega), if_pos rfl]
  have h2 : m.overlay a x (a + 2) = some (x.extractLsb' 16 8) := by
    unfold overlay
    rw [if_neg (by bv_omega), if_neg (by bv_omega), if_pos rfl]
  have h3 : m.overlay a x (a + 3) = some (x.extractLsb' 24 8) := by
    unfold overlay
    rw [if_neg (by bv_omega), if_neg (by bv_omega), if_neg (by bv_omega), if_pos rfl]
  have h0 : m.overlay a x a = some (x.extractLsb' 0 8) := if_pos rfl
  simp only [read, h0, h1, h2, h3, Option.bind_eq_bind, Option.bind_some, Option.pure_def,
    Word.ofBytes_extract]

/-- Reading depends on the four bytes of the word only. -/
theorem read_congr (h : ∀ b, Range a 4 b → m' b = m b) : m'.read a = m.read a := by
  have h0 := h a (range_four.mpr (Or.inl rfl))
  have h1 := h (a + 1) (range_four.mpr (Or.inr (Or.inl rfl)))
  have h2 := h (a + 2) (range_four.mpr (Or.inr (Or.inr (Or.inl rfl))))
  have h3 := h (a + 3) (range_four.mpr (Or.inr (Or.inr (Or.inr rfl))))
  simp only [read, h0, h1, h2, h3]

/-- Writing a block changes the bytes of the block only. -/
theorem writeBlock_frame {xs : List Word} (h : m.writeBlock a xs = some m')
    (fits : 4 * xs.length ≤ 2 ^ 32) (outside : ¬ Range a (4 * xs.length) b) : m' b = m b := by
  induction xs generalizing m a with
  | nil => cases h; rfl
  | cons x xs ih =>
    rw [List.length_cons] at fits outside
    cases first : m.write a x with
    | none => simp [writeBlock, first] at h
    | some m1 =>
      simp only [writeBlock, first, Option.bind_eq_bind, Option.bind_some] at h
      have later : ¬ Range (a + 4) (4 * xs.length) b := fun inside ↦
        outside (range_tail fits inside).1
      rw [ih h (by omega) later]
      exact write_frame first fun inside ↦ outside (range_head inside)

/-- A block reads back what was written to it. -/
theorem readBlock_writeBlock {xs : List Word} (h : m.writeBlock a xs = some m')
    (fits : 4 * xs.length ≤ 2 ^ 32) : m'.readBlock a xs.length = some xs := by
  induction xs generalizing m a with
  | nil => rfl
  | cons x xs ih =>
    rw [List.length_cons] at fits
    cases first : m.write a x with
    | none => simp [writeBlock, first] at h
    | some m1 =>
      simp only [writeBlock, first, Option.bind_eq_bind, Option.bind_some] at h
      -- the words after the first do not reach back into it
      have kept : m'.read a = m1.read a := by
        apply read_congr
        intro b inside
        exact writeBlock_frame h (by omega) fun later ↦ (range_tail fits later).2 inside
      simp only [List.length_cons, readBlock, kept, read_write first, ih h (by omega),
        Option.bind_eq_bind, Option.bind_some, Option.pure_def]

/-- A block whose bytes can be accessed can be written. -/
theorem exists_writeBlock {xs : List Word} (ok : m.Accessible a (4 * xs.length))
    (fits : 4 * xs.length ≤ 2 ^ 32) : ∃ m', m.writeBlock a xs = some m' := by
  induction xs generalizing m a with
  | nil => exact ⟨m, rfl⟩
  | cons x xs ih =>
    rw [List.length_cons] at fits ok
    have readable : (m.read a).isSome := isSome_read.mpr fun b inside ↦ ok b (range_head inside)
    obtain ⟨y, found⟩ := Option.isSome_iff_exists.mp readable
    obtain ⟨m1, first⟩ : ∃ m1, m.write a x = some m1 := by simp [write, found]
    obtain ⟨m', rest⟩ := ih (m := m1) (a := a + 4)
      (fun b inside ↦ write_isSome first (ok b (range_tail fits inside).1)) (by omega)
    exact ⟨m', by simp only [writeBlock, first, rest, Option.bind_eq_bind, Option.bind_some]⟩

end A32Assembler.Memory
