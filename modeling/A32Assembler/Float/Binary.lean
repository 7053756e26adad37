import A32Assembler.Word
import A32Assembler.Decimal.Shortest

/-!
# Floating-point patterns

Numbers of the two IEEE 754 binary formats are held as their bit patterns. A single-precision
pattern widens to the double-precision pattern of the same number, and a double-precision pattern
prints as the shortest decimal that reads back to it.
-/

namespace A32Assembler

namespace Single

/-- The double-precision pattern of the same number. A NaN keeps its sign and payload and becomes
quiet. -/
def widen (x : Word) : Doubleword :=
  let sign : Doubleword := (x.extractLsb' 31 1).setWidth 64 <<< 63
  let exponent := (x.extractLsb' 23 8).toNat
  let fraction := (x.extractLsb' 0 23).toNat
  let join (e f : Nat) : Doubleword := sign ||| BitVec.ofNat 64 (e <<< 52 + f)
  if exponent = 255 then
    join 2047 (if fraction = 0 then 0 else 1 <<< 51 ||| fraction <<< 29)
  else if exponent = 0 then
    if fraction = 0 then sign
    else
      let top := fraction.log2
      join (top + 874) ((fraction - 1 <<< top) <<< (52 - top))
  else join (exponent + 896) (fraction <<< 29)

end Single

namespace Double

/-- The biased exponent of a double. -/
def exponent (x : Doubleword) : Nat := (x.extractLsb' 52 11).toNat

/-- The fraction field of a double. -/
def fraction (x : Doubleword) : Nat := (x.extractLsb' 0 52).toNat

/-- The numbers that round to a finite non-zero double, with the double's own magnitude. Everything
is counted in quarters of the last place, because the interval below a power of two is half as long
as the one above it. An even fraction wins ties, so its interval is closed. -/
def rounding (x : Doubleword) : Decimal.Target :=
  let e := exponent x
  let f := fraction x
  let mantissa := if e = 0 then f else 1 <<< 52 + f
  let ulp : Int := (if e = 0 then 1 else e) - 1075
  let quarter := ulp - 2
  let scale := 1 <<< quarter.toNat
  let below := if f = 0 ∧ 1 < e then 1 else 2
  { low := (4 * mantissa - below) * scale
    value := 4 * mantissa * scale
    high := (4 * mantissa + 2) * scale
    unit := 1 <<< (-quarter).toNat
    closed := mantissa % 2 = 0 }

/-- A double in decimal: shortest digits in positional notation, a sign on every negative number
and on negative zero, and none on a NaN. -/
def text (x : Doubleword) : String :=
  let sign := if x.extractLsb' 63 1 = 1 then "-" else ""
  if exponent x = 2047 then
    if fraction x = 0 then sign ++ "inf" else "NaN"
  else if exponent x = 0 ∧ fraction x = 0 then sign ++ "0"
  else
    let (n, g) := (rounding x).shortest
    sign ++ String.ofList (Decimal.positional n g)

end Double

end A32Assembler
