import A32Assembler.Text.Blank

/-!
# Processor features

The two extensions of the instruction set that code may rely on, how they are read from the
processor description of a Linux system, and a scoped replacement of the flags in force.
-/

namespace A32Assembler

/-- Optional extensions of the instruction set. -/
structure Features where
  /-- `sdiv` and `udiv` exist. -/
  integerDivision : Bool
  /-- The quadword vector instructions exist. -/
  neon : Bool
deriving DecidableEq

namespace Features

/-- Every extension. -/
def full : Features := ⟨true, true⟩

/-- The features in force where code is only assembled and never run: every extension. -/
def detected : Features := full

/-- A line cut at its first colon, if it has one. -/
def splitAtColon? (line : List Char) : Option (List Char × List Char) :=
  match line.dropWhile (· ≠ ':') with
  | [] => none
  | _ :: value => some (line.takeWhile (· ≠ ':'), value)

/-- The value of the first line whose key is `Features`, white space around the key aside. -/
def flagText (description : List Char) : List Char :=
  let entries := (Text.lines description).filterMap splitAtColon?
  match entries.find? fun (key, _) ↦ Text.trim key = "Features".toList with
  | some (_, value) => value
  | none => []

/-- The features that a processor description lists, each as a whole word. -/
def ofDescription (description : String) : Features :=
  let flags := Text.words (flagText description.toList)
  ⟨flags.contains "idiva".toList, flags.contains "neon".toList⟩

end Features

/-- The feature flags of a process. -/
structure FeatureFlags where
  current : Features

/-- What undoes a replacement of the flags: the flags that were in force before it. -/
structure FeatureOverride where
  previous : Features

namespace FeatureFlags

/-- The flags of a process that has replaced none. -/
def initial : FeatureFlags := ⟨.detected⟩

/-- Other flags in place of the current ones. -/
def override (flags : FeatureFlags) (features : Features) : FeatureOverride × FeatureFlags :=
  (⟨flags.current⟩, ⟨features⟩)

/-- The end of a replacement. -/
def restore (_ : FeatureFlags) (o : FeatureOverride) : FeatureFlags := ⟨o.previous⟩

end FeatureFlags

end A32Assembler
