import A32Assembler.Text.Blank

/-!
# Lines and words

What a text looks like whose lines, or whose words, are given. A line ends with a line feed, perhaps
with a carriage return before it, and the last line may end with the text. Words stand apart by
white space, as much of it and of whatever kind. Cutting a text gives exactly the words that it is
made of, and its lines up to a carriage return at their ends.
-/

namespace A32Assembler.Text

/-- A text and its lines. A carriage return before a line feed belongs to the end of the line or to
the line itself. -/
inductive Lined : List Char → List (List Char) → Prop
  | nil : Lined [] []
  | last {l : List Char} : l ≠ [] → '\n' ∉ l → Lined l [l]
  | feed {l cs : List Char} {ls : List (List Char)} :
      '\n' ∉ l → Lined cs ls → Lined (l ++ '\n' :: cs) (l :: ls)
  | returnFeed {l cs : List Char} {ls : List (List Char)} :
      '\n' ∉ l → Lined cs ls → Lined (l ++ '\r' :: '\n' :: cs) (l :: ls)

/-- A text and its words: white space stands around them, and at least one blank between two. -/
inductive Spaced : List Char → List (List Char) → Prop
  | nil : Spaced [] []
  | blank {c : Char} {cs : List Char} {ws : List (List Char)} :
      isBlank c = true → Spaced cs ws → Spaced (c :: cs) ws
  | word {w cs : List Char} {ws : List (List Char)} :
      w ≠ [] → (∀ c ∈ w, isBlank c = false) → (∀ c ∈ cs.head?, isBlank c = true) →
      Spaced cs ws → Spaced (w ++ cs) (w :: ws)

/-- A text with nothing but white space around it. -/
def Padded (cs core : List Char) : Prop :=
  ∃ before after, cs = before ++ core ++ after ∧
    (∀ c ∈ before, isBlank c = true) ∧ ∀ c ∈ after, isBlank c = true

variable {cs l w : List Char} {ws : List (List Char)}

/-- The pieces between separators are those of the library. -/
theorem splitAll_eq_splitOnP (p : Char → Bool) (cs : List Char) :
    splitAll p cs = cs.splitOnP p := by
  induction cs with
  | nil => rfl
  | cons c cs ih =>
    rw [splitAll, ih, List.splitOnP_cons_eq_if_modifyHead]
    cases p c with
    | true => rfl
    | false =>
      cases pieces : cs.splitOnP p with
      | nil => exact absurd pieces (List.splitOnP_ne_nil p cs)
      | cons piece rest => rfl

/-! ### Words -/

/-- White space in front does not change the words. -/
theorem words_cons_blank {c : Char} (blank : isBlank c = true) : words (c :: cs) = words cs := by
  simp [words, splitAll_eq_splitOnP, List.splitOnP_cons_eq_if_modifyHead, blank]

/-- A word in front of white space, or of nothing, is the first word. -/
theorem words_append (some_char : w ≠ []) (solid : ∀ c ∈ w, isBlank c = false)
    (apart : ∀ c ∈ cs.head?, isBlank c = true) : words (w ++ cs) = w :: words cs := by
  cases cs with
  | nil =>
    rw [List.append_nil, words, splitAll_eq_splitOnP, List.splitOnP_eq_singleton solid]
    simp [words, splitAll, some_char]
  | cons c cs =>
    have blank : isBlank c = true := apart c rfl
    rw [words_cons_blank blank, words, splitAll_eq_splitOnP,
      List.splitOnP_append_cons_of_forall_mem solid c blank]
    simp [words, splitAll_eq_splitOnP, some_char]

/-- The words that a text is made of are found. -/
theorem Spaced.words_eq (made : Spaced cs ws) : words cs = ws := by
  induction made with
  | nil => rfl
  | blank blank _ ih => rw [words_cons_blank blank, ih]
  | word some_char solid apart _ ih => rw [words_append some_char solid apart, ih]

/-- White space at the end does not change the words. -/
theorem Spaced.append_blank {c : Char} (made : Spaced cs ws) (blank : isBlank c = true) :
    Spaced (cs ++ [c]) ws := by
  induction made with
  | nil => exact .blank blank .nil
  | blank first _ ih => exact .blank first ih
  | @word w cs ws some_char solid apart _ ih =>
    rw [List.append_assoc]
    refine .word some_char solid ?_ ih
    cases cs with
    | nil =>
      rintro _ ⟨⟩
      exact blank
    | cons d cs => exact apart

/-- Every text is made of words. -/
theorem exists_spaced (cs : List Char) : ∃ ws, Spaced cs ws := by
  match cs with
  | [] => exact ⟨[], .nil⟩
  | c :: cs =>
    cases blank : isBlank c with
    | true =>
      obtain ⟨ws, made⟩ := exists_spaced cs
      exact ⟨ws, .blank blank made⟩
    | false =>
      -- the word goes as far as there is no white space
      have shorter := (List.dropWhile_sublist (l := cs) fun c ↦ !isBlank c).length_le
      obtain ⟨ws, made⟩ := exists_spaced (cs.dropWhile fun c ↦ !isBlank c)
      have whole : c :: cs =
          (c :: cs.takeWhile fun c ↦ !isBlank c) ++ cs.dropWhile fun c ↦ !isBlank c := by
        rw [List.cons_append, List.takeWhile_append_dropWhile]
      refine ⟨(c :: cs.takeWhile fun c ↦ !isBlank c) :: ws, whole ▸ .word (by simp) ?_ ?_ made⟩
      · rintro d (_ | ⟨_, taken⟩)
        · exact blank
        · simpa using List.all_eq_true.mp List.all_takeWhile d taken
      · intro d first
        have stop := List.head?_dropWhile_not (fun c ↦ !isBlank c) cs
        rw [Option.mem_def.mp first] at stop
        simpa using stop
termination_by cs.length
decreasing_by
  all_goals simp only [List.length_cons]
  all_goals omega

/-- A text is made of exactly the words that are found in it. -/
theorem words_eq_iff : words cs = ws ↔ Spaced cs ws := by
  refine ⟨?_, Spaced.words_eq⟩
  rintro rfl
  obtain ⟨ws, made⟩ := exists_spaced cs
  exact made.words_eq ▸ made

/-- Of white space in front of something else, exactly the white space is dropped. -/
theorem dropWhile_isBlank_append {pad : List Char} (blank : ∀ c ∈ pad, isBlank c = true)
    (stop : ∀ c ∈ cs.head?, isBlank c = false) : (pad ++ cs).dropWhile isBlank = cs := by
  rw [List.dropWhile_append_of_pos blank]
  cases cs with
  | nil => rfl
  | cons c cs => exact List.dropWhile_cons_of_neg (by simp [stop c rfl])

/-- Trimming leaves a word exactly if there is only white space around it. -/
theorem trim_eq_iff (some_char : w ≠ []) (solid : ∀ c ∈ w, isBlank c = false) :
    trim cs = w ↔ Padded cs w := by
  constructor
  · rintro rfl
    have taken (cs : List Char) : ∀ c ∈ cs.takeWhile isBlank, isBlank c = true :=
      List.all_eq_true.mp List.all_takeWhile
    refine ⟨cs.takeWhile isBlank, ((cs.dropWhile isBlank).reverse.takeWhile isBlank).reverse, ?_,
      taken cs, fun c mem ↦ taken _ c (List.mem_reverse.mp mem)⟩
    rw [trim, List.append_assoc, ← List.reverse_append, List.takeWhile_append_dropWhile,
      List.reverse_reverse, List.takeWhile_append_dropWhile]
  · rintro ⟨before, after, rfl, blank, blank'⟩
    have first : ∀ c ∈ (w ++ after).head?, isBlank c = false := by
      obtain ⟨c, rest, rfl⟩ := List.exists_cons_of_ne_nil some_char
      rintro _ ⟨⟩
      exact solid c List.mem_cons_self
    have last : ∀ c ∈ w.reverse.head?, isBlank c = false := fun c mem ↦
      solid c (List.mem_reverse.mp (List.mem_of_mem_head? mem))
    rw [trim, List.append_assoc, dropWhile_isBlank_append blank first, List.reverse_append,
      dropWhile_isBlank_append (fun c mem ↦ blank' c (List.mem_reverse.mp mem)) last,
      List.reverse_reverse]

/-! ### Lines -/

/-- A line without the carriage return at its end. -/
def dropReturn (l : List Char) : List Char := if l.getLast? = some '\r' then l.dropLast else l

/-- A carriage return at the end is dropped. -/
theorem dropReturn_append_return : dropReturn (l ++ ['\r']) = l := by
  simp [dropReturn]

/-- Nothing else is dropped. -/
theorem dropReturn_cases (l : List Char) : dropReturn l = l ∨ ∃ m, l = m ++ ['\r'] := by
  unfold dropReturn
  split
  · next ends => exact .inr (List.getLast?_eq_some_iff.mp ends)
  · exact .inl rfl

private theorem eq_feed_of_notMem (whole : '\n' ∉ l) : ∀ c ∈ l, decide (c = '\n') = false :=
  fun _ mem ↦ decide_eq_false fun same ↦ whole (same ▸ mem)

/-- A text up to its first line feed is its first line. -/
theorem lines_append_feed (whole : '\n' ∉ l) :
    lines (l ++ '\n' :: cs) = dropReturn l :: lines cs := by
  have pieces : splitAll (· = '\n') (l ++ '\n' :: cs) = l :: splitAll (· = '\n') cs := by
    simp only [splitAll_eq_splitOnP]
    exact List.splitOnP_append_cons_of_forall_mem (eq_feed_of_notMem whole) '\n' rfl cs
  unfold lines
  rw [pieces]
  cases rest : splitAll (· = '\n') cs with
  | nil => exact absurd ((splitAll_eq_splitOnP _ _).symm.trans rest) (List.splitOnP_ne_nil _ _)
  | cons piece rest =>
    simp only [List.dropLast_cons_cons, List.map_cons, List.getLast?_cons_cons, dropReturn]
    split <;> rfl

/-- A text without line feeds is one line, unless it is empty. -/
theorem lines_of_notMem (whole : '\n' ∉ l) (some_char : l ≠ []) : lines l = [l] := by
  obtain ⟨c, rest, rfl⟩ := List.exists_cons_of_ne_nil some_char
  have pieces : splitAll (· = '\n') (c :: rest) = [c :: rest] := by
    rw [splitAll_eq_splitOnP, List.splitOnP_eq_singleton (eq_feed_of_notMem whole)]
  simp [lines, pieces]

/-- A text is made of the lines that are found in it. -/
theorem lined_lines (cs : List Char) : Lined cs (lines cs) := by
  by_cases found : '\n' ∈ cs
  · obtain ⟨l, rest, rfl, whole⟩ := List.eq_append_cons_of_mem found
    have shorter : rest.length < (l ++ '\n' :: rest).length := by
      simp only [List.length_append, List.length_cons]
      omega
    have tail := lined_lines rest
    rw [lines_append_feed whole]
    obtain same | ⟨m, rfl⟩ := dropReturn_cases l
    · rw [same]
      exact .feed whole tail
    · rw [dropReturn_append_return, List.append_assoc]
      exact .returnFeed (fun mem ↦ whole (List.mem_append_left _ mem)) tail
  · by_cases some_char : cs = []
    · subst some_char
      exact .nil
    · rw [lines_of_notMem found some_char]
      exact .last some_char found
termination_by cs.length

end A32Assembler.Text
