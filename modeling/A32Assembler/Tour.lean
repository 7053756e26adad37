import A32Assembler.Assembler

/-!
# A tour of the assembler

Six small functions, each announced, assembled and reported. They are assembled only; running them
takes a processor of the right kind.
-/

namespace A32Assembler.Tour

/-- A function of the tour. -/
structure Exhibit where
  title : String
  /-- What is known before the function is assembled. -/
  preface : String
  program : Assembler → Except Error Assembler
  /-- Whether the words of the function are shown. -/
  showWords : Bool

private def core (i : CoreInstruction) : Call := .issue (.core i)

private def r1 : Register := .ofNat 1

-- The arguments of a function on doubles.
private def d0 : DRegister := ⟨0⟩

private def d1 : DRegister := ⟨1⟩

private def plain (title : String) (calls : List Call) : Exhibit :=
  ⟨title, "", (·.applyAll calls), false⟩

/-- A function that returns 42. -/
def constant : Exhibit :=
  plain "Creating a function that returns 42..."
    [core (.move .mov false .r0 (.immediate 0 42)), core .ret]

/-- A function that adds its two arguments. -/
def addition : Exhibit :=
  plain "Creating a function that adds two numbers..."
    [core (.arithmetic .add false .r0 .r0 (.register r1)), core .ret]

/-- A function with a constant that takes more than one instruction. -/
def scaling : Exhibit :=
  plain "Creating a function that computes (x + 0x12345) << 1..."
    [.expand (.addImmediate false .r0 .r0 0x12345), .shift .lsl .r0 .r0 1, core .ret]

/-- A function with a loop that ends in a conditional branch back. -/
def loop : Exhibit where
  title := "Creating a function that sums 1..=n..."
  preface := ""
  program := fun a ↦ do
    let (head, a) := a.newLabel
    let a ← a.applyAll [core (.move .mov false r1 (.register .r0)),
      core (.move .mov false .r0 .zero), .bind head,
      core (.arithmetic .add false .r0 .r0 (.register r1)),
      core (.arithmetic .sub true r1 r1 .one)]
    let a ← a.within .ne (·.applyAll [.branch false head])
    a.applyAll [core .ret]
  showWords := true

/-- A function that divides its two arguments. -/
def division (features : Features) : Exhibit where
  title := "Creating a function that divides two numbers..."
  preface :=
    "   Hardware division: " ++ (if features.integerDivision then "true" else "false") ++ "\n"
  program := (·.applyAll [.expand (.divide true .r0 .r0 r1 d0 d1), core .ret])
  showWords := false

/-- A function on double-precision numbers. -/
def squareRoot : Exhibit :=
  plain "Creating a function that computes sqrt(a * b)..."
    [.issue (.float (.binary .vmul d0 d0 d1)), .issue (.float (.unary .vsqrt d0 d0)), core .ret]

/-- The words of a function, numbered from `first` on. -/
def wordLines (first : Nat) : List Word → String
  | [] => ""
  | w :: ws => "   [" ++ toString first ++ "] " ++ w.hex ++ "\n" ++ wordLines (first + 1) ws

/-- The finished function of an exhibit. -/
def Exhibit.assemble (e : Exhibit) (features : Features) : Except Error Listing := do
  let a ← e.program (.start (.near features))
  let _ ← liftRefusal a.code
  return a.listing

/-- What is written about an exhibit. -/
def Exhibit.text (e : Exhibit) (number : Nat) (features : Features) : String :=
  let report :=
    match e.assemble features with
    | .ok l =>
      (if e.showWords then wordLines 0 l.words else "") ++
        "   Function created successfully!\n   (Skipping execution - not on ARM host)\n"
    | .error error => "   Failed to create function: " ++ error.message ++ "\n"
  "\n" ++ toString number ++ ". " ++ e.title ++ "\n" ++ e.preface ++ report

/-- The exhibits in order. -/
def exhibits (features : Features) : List Exhibit :=
  [constant, addition, scaling, loop, division features, squareRoot]

/-- What is written about exhibits that are numbered from `first` on. -/
def exhibitTexts (features : Features) (first : Nat) : List Exhibit → String
  | [] => ""
  | e :: es => e.text first features ++ exhibitTexts features (first + 1) es

/-- All that the tour writes. -/
def transcript (features : Features) : String :=
  "ARM JIT Assembler - JIT Execution Example\n=========================================\n" ++
    exhibitTexts features 1 (exhibits features) ++
    "\nAll examples completed!\n" ++
    "Note: To actually execute these functions, run this example on an ARMv7 system.\n"

end A32Assembler.Tour
