import A32Assembler.Features
import A32Assembler.Proofs.Text.Pieces

/-!
# Reading processor descriptions

The features of a processor are those that the first line of flags in its description lists as whole
words. So they survive every edit of the description that keeps this line the first of its kind and
keeps its set of words.
-/

namespace A32Assembler.Features

open Text

/-- A line of flags: what stands before its first colon is `Features`, white space around it aside.
The value is what stands behind this colon. -/
def Flags (line value : List Char) : Prop :=
  ∃ key, line = key ++ ':' :: value ∧ ':' ∉ key ∧ Padded key "Features".toList

/-- Whether a line is a line of flags. -/
def IsFlags (line : List Char) : Prop := ∃ value, Flags line value

/-- The first line of flags lists a flag as a whole word. -/
def FirstLists (flag : List Char) (ls : List (List Char)) : Prop :=
  ∃ (pre : List (List Char)) (line : List Char) (post : List (List Char)) (value : List Char)
    (ws : List (List Char)), ls = pre ++ line :: post ∧ (∀ l ∈ pre, ¬ IsFlags l) ∧
      Flags line value ∧ Spaced value ws ∧ flag ∈ ws

/-- A line that stands behind others is not the first line of flags. -/
def Passed (pre : List (List Char)) (line : List Char) : Prop :=
  IsFlags line → ∃ l ∈ pre, IsFlags l

/-- Edits of the lines of a description. Lines come, go and change where they are not the first line
of flags; a line of flags keeps the set of its words. -/
inductive Edited : List (List Char) → List (List Char) → Prop
  | refl (ls : List (List Char)) : Edited ls ls
  | insert {pre post : List (List Char)} {line : List Char} :
      Passed pre line → Edited (pre ++ post) (pre ++ line :: post)
  | delete {pre post : List (List Char)} {line : List Char} :
      Passed pre line → Edited (pre ++ line :: post) (pre ++ post)
  | replace {pre post : List (List Char)} {line line' : List Char} :
      Passed pre line → Passed pre line' → Edited (pre ++ line :: post) (pre ++ line' :: post)
  | respell {pre post : List (List Char)} {line line' value value' : List Char}
      {ws ws' : List (List Char)} :
      Flags line value → Flags line' value' → Spaced value ws → Spaced value' ws' →
      (∀ w, w ∈ ws' ↔ w ∈ ws) → Edited (pre ++ line :: post) (pre ++ line' :: post)
  | trans {ls ls' ls'' : List (List Char)} : Edited ls ls' → Edited ls' ls'' → Edited ls ls''

variable {line value flag cs l : List Char} {pre post ls ls' ws : List (List Char)}

/-- A line is cut at its first colon. -/
theorem splitAtColon?_eq_some {key : List Char} :
    splitAtColon? line = some (key, value) ↔ line = key ++ ':' :: value ∧ ':' ∉ key := by
  constructor
  · intro cut
    have whole := List.takeWhile_append_dropWhile (p := (· ≠ ':')) (l := line)
    have stop := List.head?_dropWhile_not (· ≠ ':') line
    unfold splitAtColon? at cut
    split at cut
    · cases cut
    · next c v found =>
      cases cut
      rw [found] at whole stop
      have colon : c = ':' := by simpa using stop
      refine ⟨colon ▸ whole.symm, fun mem ↦ ?_⟩
      simpa using List.all_eq_true.mp List.all_takeWhile _ mem
  · rintro ⟨rfl, first⟩
    have before : ∀ c ∈ key, decide (c ≠ ':') = true := by
      rintro c mem
      exact decide_eq_true fun same ↦ first (same ▸ mem)
    have behind : (key ++ ':' :: value).dropWhile (· ≠ ':') = ':' :: value := by
      rw [List.dropWhile_append_of_pos before]
      rfl
    have front : (key ++ ':' :: value).takeWhile (· ≠ ':') = key := by
      rw [List.takeWhile_append_of_pos before, List.takeWhile_cons_of_neg (by simp),
        List.append_nil]
    rw [splitAtColon?, behind]
    simp only [front]

/-- A line of flags is one whose key is found to be `Features`. -/
theorem flags_iff :
    Flags line value ↔
      ∃ key, splitAtColon? line = some (key, value) ∧ trim key = "Features".toList := by
  have solid : ∀ c ∈ "Features".toList, isBlank c = false := by
    have all : "Features".toList.all (!isBlank ·) = true := by decide
    simpa using List.all_eq_true.mp all
  simp only [Flags, splitAtColon?_eq_some, trim_eq_iff (by decide) solid, and_assoc]

/-- Whether a line is a line of flags can be told from its key. -/
theorem isFlags_iff :
    IsFlags line ↔ (splitAtColon? line).map (fun (key, _) ↦ trim key) = some "Features".toList := by
  simp only [IsFlags, flags_iff, Option.map_eq_some_iff, Prod.exists]
  exact exists_comm

/-- A line of flags is told by cutting the line at its first colon. -/
instance (line : List Char) : Decidable (IsFlags line) := decidable_of_iff _ isFlags_iff.symm

/-- So can its value. -/
theorem flags_iff_map :
    Flags line value ↔
      (splitAtColon? line).map (Prod.map trim id) = some ("Features".toList, value) := by
  rw [flags_iff, Option.map_eq_some_iff, Prod.exists]
  constructor
  · rintro ⟨key, cut, named⟩
    exact ⟨key, value, cut, Prod.ext named rfl⟩
  · rintro ⟨key, v, cut, both⟩
    obtain ⟨named, rfl⟩ := Prod.mk.inj both
    exact ⟨key, cut, named⟩

/-- The value of a line is told by the same cut. -/
instance (line value : List Char) : Decidable (Flags line value) :=
  decidable_of_iff _ flags_iff_map.symm

/-- A line has one value at most. -/
theorem Flags.unique {value' : List Char} (flags : Flags line value) (flags' : Flags line value') :
    value = value' := by
  obtain ⟨key, cut, -⟩ := flags_iff.mp flags
  obtain ⟨key', cut', -⟩ := flags_iff.mp flags'
  rw [cut] at cut'
  cases cut'
  rfl

/-! ### The first line of flags -/

/-- There is no line of flags among no lines. -/
theorem not_firstLists_nil : ¬ FirstLists flag [] := by
  rintro ⟨pre, line, post, value, ws, whole, -⟩
  cases pre <;> cases whole

/-- Other lines are passed over. -/
theorem firstLists_cons_of_not (other : ¬ IsFlags l) :
    FirstLists flag (l :: ls) ↔ FirstLists flag ls := by
  constructor
  · rintro ⟨pre, line, post, value, ws, whole, before, flags, rest⟩
    cases pre with
    | nil =>
      cases whole
      exact absurd ⟨value, flags⟩ other
    | cons l' pre =>
      cases whole
      exact ⟨pre, line, post, value, ws, rfl, fun k mem ↦ before k (.tail _ mem), flags, rest⟩
  · rintro ⟨pre, line, post, value, ws, rfl, before, rest⟩
    refine ⟨l :: pre, line, post, value, ws, rfl, ?_, rest⟩
    rintro k (_ | ⟨_, mem⟩)
    · exact other
    · exact before k mem

/-- A line of flags in front is the first. -/
theorem firstLists_cons_of_flags (flags : Flags l value) :
    FirstLists flag (l :: ls) ↔ flag ∈ words value := by
  constructor
  · rintro ⟨pre, line, post, value', ws, whole, before, flags', made, mem⟩
    cases pre with
    | nil =>
      cases whole
      rw [flags.unique flags', made.words_eq]
      exact mem
    | cons l' pre =>
      cases whole
      exact absurd ⟨value, flags⟩ (before l List.mem_cons_self)
  · intro mem
    exact ⟨[], l, ls, value, words value, rfl, by simp, flags, words_eq_iff.mp rfl, mem⟩

/-- What the first line of flags lists depends on what stands behind a line at most. -/
theorem firstLists_cons_congr (same : FirstLists flag ls ↔ FirstLists flag ls') :
    FirstLists flag (l :: ls) ↔ FirstLists flag (l :: ls') := by
  by_cases flags : IsFlags l
  · obtain ⟨value, flags⟩ := flags
    rw [firstLists_cons_of_flags flags, firstLists_cons_of_flags flags]
  · rw [firstLists_cons_of_not flags, firstLists_cons_of_not flags, same]

/-- The same behind several lines. -/
theorem firstLists_append_congr (same : FirstLists flag ls ↔ FirstLists flag ls') :
    FirstLists flag (pre ++ ls) ↔ FirstLists flag (pre ++ ls') := by
  induction pre with
  | nil => exact same
  | cons l pre ih => exact firstLists_cons_congr ih

/-- Behind a line of flags nothing matters. -/
theorem firstLists_append_of_flags (found : ∃ l ∈ pre, IsFlags l) :
    FirstLists flag (pre ++ ls) ↔ FirstLists flag (pre ++ ls') := by
  induction pre with
  | nil => simp at found
  | cons l pre ih =>
    by_cases flags : IsFlags l
    · obtain ⟨value, flags⟩ := flags
      exact (firstLists_cons_of_flags flags).trans (firstLists_cons_of_flags flags).symm
    · exact firstLists_cons_congr (ih (by simpa [flags] using found))

/-- A line that is not the first line of flags does not matter. -/
theorem firstLists_insert (passed : Passed pre l) :
    FirstLists flag (pre ++ l :: post) ↔ FirstLists flag (pre ++ post) := by
  by_cases flags : IsFlags l
  · exact firstLists_append_of_flags (passed flags)
  · exact firstLists_append_congr (firstLists_cons_of_not flags)

/-- Edits keep what the first line of flags lists. -/
theorem Edited.firstLists_iff (edited : Edited ls ls') :
    FirstLists flag ls' ↔ FirstLists flag ls := by
  induction edited with
  | refl ls => exact Iff.rfl
  | insert passed => exact firstLists_insert passed
  | delete passed => exact (firstLists_insert passed).symm
  | replace passed passed' =>
    exact (firstLists_insert passed').trans (firstLists_insert passed).symm
  | respell flags flags' made made' same =>
    refine firstLists_append_congr ?_
    rw [firstLists_cons_of_flags flags, firstLists_cons_of_flags flags', made.words_eq,
      made'.words_eq]
    exact same flag
  | trans _ _ ih ih' => exact ih'.trans ih

/-! ### Line ends -/

/-- A carriage return at the end of a line belongs to its value. -/
theorem flags_append_return :
    Flags (l ++ ['\r']) value ↔ ∃ v, value = v ++ ['\r'] ∧ Flags l v := by
  constructor
  · rintro ⟨key, whole, rest⟩
    obtain rfl | ⟨v, c, rfl⟩ := List.eq_nil_or_concat value
    · cases (List.append_inj' whole rfl).2
    · rw [List.concat_eq_append, ← List.cons_append, ← List.append_assoc] at whole
      obtain ⟨rfl, ends⟩ := List.append_inj' whole rfl
      cases ends
      exact ⟨v, List.concat_eq_append, key, rfl, rest⟩
  · rintro ⟨v, rfl, key, rfl, rest⟩
    exact ⟨key, List.append_assoc key (':' :: v) _, rest⟩

/-- A carriage return at the end of a line does not matter. -/
theorem firstLists_cons_return :
    FirstLists flag ((l ++ ['\r']) :: ls) ↔ FirstLists flag (l :: ls) := by
  by_cases flags : IsFlags l
  · obtain ⟨value, flags⟩ := flags
    have same : words (value ++ ['\r']) = words value :=
      ((words_eq_iff.mp rfl).append_blank (by decide)).words_eq
    rw [firstLists_cons_of_flags flags,
      firstLists_cons_of_flags (flags_append_return.mpr ⟨value, rfl, flags⟩), same]
  · have other : ¬ IsFlags (l ++ ['\r']) := by
      rintro ⟨value, flags'⟩
      obtain ⟨v, -, flags'⟩ := flags_append_return.mp flags'
      exact flags ⟨v, flags'⟩
    rw [firstLists_cons_of_not flags, firstLists_cons_of_not other]

/-- The lines that are found in a text list the same flags as those that it is made of. -/
theorem firstLists_lines (made : Lined cs ls) :
    FirstLists flag (lines cs) ↔ FirstLists flag ls := by
  induction made with
  | nil => exact Iff.rfl
  | last some_char whole => rw [lines_of_notMem whole some_char]
  | @feed l cs ls whole _ ih =>
    rw [lines_append_feed whole]
    refine (firstLists_cons_congr ih).trans ?_
    obtain same | ⟨m, rfl⟩ := dropReturn_cases l
    · rw [same]
    · rw [dropReturn_append_return]
      exact firstLists_cons_return.symm
  | @returnFeed l cs ls whole _ ih =>
    have whole' : '\n' ∉ l ++ ['\r'] := by simpa using whole
    rw [show l ++ '\r' :: '\n' :: cs = (l ++ ['\r']) ++ '\n' :: cs by simp,
      lines_append_feed whole', dropReturn_append_return]
    exact firstLists_cons_congr ih

/-! ### The features -/

/-- The value of the first line of flags. -/
def firstValue (ls : List (List Char)) : List Char :=
  match (ls.filterMap splitAtColon?).find? fun (key, _) ↦ trim key = "Features".toList with
  | some (_, value) => value
  | none => []

/-- It is what is read. -/
theorem flagText_eq : flagText cs = firstValue (lines cs) := rfl

/-- The words of this value are the flags that the first line lists. -/
theorem mem_words_firstValue : flag ∈ words (firstValue ls) ↔ FirstLists flag ls := by
  induction ls with
  | nil =>
    have empty : words (firstValue []) = [] := rfl
    rw [empty]
    exact iff_of_false List.not_mem_nil not_firstLists_nil
  | cons l ls ih =>
    by_cases flags : IsFlags l
    · obtain ⟨value, flags⟩ := flags
      obtain ⟨key, cut, named⟩ := flags_iff.mp flags
      rw [firstLists_cons_of_flags flags, firstValue]
      simp only [List.filterMap_cons_some cut, List.find?_cons, decide_eq_true named]
    · rw [firstLists_cons_of_not flags, ← ih, firstValue]
      cases cut : splitAtColon? l with
      | none =>
        rw [List.filterMap_cons_none cut]
        rfl
      | some entry =>
        obtain ⟨key, value⟩ := entry
        have other : ¬ trim key = "Features".toList := fun named ↦
          flags ⟨value, flags_iff.mpr ⟨key, cut, named⟩⟩
        simp only [List.filterMap_cons_some cut, List.find?_cons, decide_eq_false other, firstValue]

/-- A flag is found in a description exactly if the first line of flags lists it. -/
theorem contains_flag {description : String} (made : Lined description.toList ls) :
    (words (flagText description.toList)).contains flag = true ↔ FirstLists flag ls := by
  rw [List.contains_iff_mem, flagText_eq, mem_words_firstValue, firstLists_lines made]

/-- Every description has lines. However they end, the processor has hardware division exactly if
the first line of flags lists `idiva` as a whole word, and vector instructions exactly if it lists
`neon`. So edits that keep the first line of flags and its words in whatever spelling keep the
features. -/
theorem features_of_first_flags (description : String) :
    (∃ ls, Lined description.toList ls) ∧
    ∀ ls, Lined description.toList ls →
      ((ofDescription description).integerDivision = true ↔ FirstLists "idiva".toList ls) ∧
      ((ofDescription description).neon = true ↔ FirstLists "neon".toList ls) ∧
      ∀ (edited : String) (ls' : List (List Char)), Lined edited.toList ls' → Edited ls ls' →
        ofDescription edited = ofDescription description := by
  refine ⟨⟨_, lined_lines _⟩, fun ls made ↦ ⟨contains_flag made, contains_flag made, ?_⟩⟩
  intro edited ls' made' edits
  have same (flag : List Char) : (words (flagText edited.toList)).contains flag =
      (words (flagText description.toList)).contains flag := by
    rw [Bool.eq_iff_iff, contains_flag made, contains_flag made', edits.firstLists_iff]
  rw [ofDescription, ofDescription, same, same]

/-- A description with its flags in the second line. -/
def plain : String := "cpu : 0\r\nFeatures\t: neon vfp\n"

/-- The same flags in another order and with other white space, behind a line that lists nothing and
in front of a line of flags that comes too late. -/
def respelled : String := "Features idiva\nFeatures:vfp\u2003neon  vfp\r\nFeatures: idiva"

/-- The lines of the one come from those of the other by edits. -/
theorem edited_respelled : Edited (lines plain.toList) (lines respelled.toList) := by
  have cut : lines plain.toList =
      [] ++ "cpu : 0".toList :: ["Features\t: neon vfp".toList] := by
    decide +kernel
  have cut' : lines respelled.toList =
      ["Features idiva".toList, "Features:vfp\u2003neon  vfp".toList] ++
        "Features: idiva".toList :: [] := by
    decide +kernel
  have flags : Flags "Features\t: neon vfp".toList " neon vfp".toList := by decide +kernel
  have flags' : Flags "Features:vfp\u2003neon  vfp".toList "vfp\u2003neon  vfp".toList := by
    decide +kernel
  have made : Spaced " neon vfp".toList ["neon".toList, "vfp".toList] :=
    words_eq_iff.mp (by decide +kernel)
  have made' : Spaced "vfp\u2003neon  vfp".toList
      ["vfp".toList, "neon".toList, "vfp".toList] :=
    words_eq_iff.mp (by decide +kernel)
  have no_flags {line : List Char} (other : ¬ IsFlags line) : Passed [] line :=
    fun flags ↦ absurd flags other
  have first : Edited (lines plain.toList)
      (["Features idiva".toList] ++ "Features\t: neon vfp".toList :: []) :=
    cut ▸ .replace (no_flags (by decide +kernel)) (no_flags (by decide +kernel))
  have second : Edited (["Features idiva".toList] ++ "Features\t: neon vfp".toList :: [])
      (["Features idiva".toList] ++ "Features:vfp\u2003neon  vfp".toList :: []) :=
    .respell flags flags' made made' (by simp only [List.mem_cons]; grind)
  have third : Edited
      (["Features idiva".toList, "Features:vfp\u2003neon  vfp".toList] ++ [])
      (lines respelled.toList) :=
    cut' ▸ .insert fun _ ↦ ⟨_, .tail _ (.head _), _, flags'⟩
  exact first.trans (second.trans third)

/-- Either way the processor has vector instructions only. -/
theorem respelled_flags_keep_neon :
    Lined plain.toList (lines plain.toList) ∧ Lined respelled.toList (lines respelled.toList) ∧
      ofDescription plain = ⟨false, true⟩ ∧ ofDescription respelled = ⟨false, true⟩ := by
  have found : ofDescription plain = ⟨false, true⟩ := by decide +kernel
  obtain ⟨-, kept⟩ := features_of_first_flags plain
  obtain ⟨-, -, kept⟩ := kept _ (lined_lines _)
  exact ⟨lined_lines _, lined_lines _, found,
    (kept respelled _ (lined_lines _) edited_respelled).trans found⟩

end A32Assembler.Features
