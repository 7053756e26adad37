import A32Assembler.Word

/-!
# Condition field

The four bits at the top of a predicated instruction. The conditions come in pairs that differ in
the lowest bit and exclude each other; `AL` has no partner.
-/

namespace A32Assembler

/-- The test an instruction is issued under. -/
inductive Condition
  | eq | ne | cs | cc | mi | pl | vs | vc | hi | ls | ge | lt | gt | le | al
deriving DecidableEq

namespace Condition

/-- The condition field. -/
def bits : Condition → BitVec 4
  | eq => 0 | ne => 1 | cs => 2 | cc => 3 | mi => 4 | pl => 5 | vs => 6 | vc => 7
  | hi => 8 | ls => 9 | ge => 10 | lt => 11 | gt => 12 | le => 13 | al => 14

/-- The assembler's name of a condition. -/
def name : Condition → String
  | eq => "EQ" | ne => "NE" | cs => "CS" | cc => "CC" | mi => "MI" | pl => "PL" | vs => "VS"
  | vc => "VC" | hi => "HI" | ls => "LS" | ge => "GE" | lt => "LT" | gt => "GT" | le => "LE"
  | al => "AL"

/-- All conditions in the order of their fields. -/
def all : List Condition := [eq, ne, cs, cc, mi, pl, vs, vc, hi, ls, ge, lt, gt, le, al]

/-- The condition with a given name. The carry tests have a second name each, after unsigned
comparison: `HS` (higher or same) and `LO` (lower). -/
def ofName? (s : String) : Option Condition :=
  if s = "HS" then some cs
  else if s = "LO" then some cc
  else all.find? (·.name = s)

/-- The condition that holds exactly when `c` does not; `AL` has none. -/
def inverse? : Condition → Option Condition
  | eq => some ne | ne => some eq | cs => some cc | cc => some cs | mi => some pl | pl => some mi
  | vs => some vc | vc => some vs | hi => some ls | ls => some hi | ge => some lt | lt => some ge
  | gt => some le | le => some gt | al => none

end Condition

end A32Assembler
