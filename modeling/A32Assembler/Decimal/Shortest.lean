/-!
# Shortest decimals

The decimal with the fewest digits inside an interval around a positive rational, and of those the
one nearest to the rational. The search runs over the decimal grids `10 ^ g` from coarse to fine.
On each grid only the two neighbours of the rational matter: if any grid point lies in the interval,
one of them does.
-/

namespace A32Assembler.Decimal

/-- A positive rational `value / unit` with an interval around it. -/
structure Target where
  low : Nat
  value : Nat
  high : Nat
  unit : Nat
  /-- Whether the two ends belong to the interval. -/
  closed : Bool

/-- Whether the interval contains `x / (unit * scale)`. -/
def Target.contains (t : Target) (scale x : Nat) : Bool :=
  if t.closed then decide (t.low * scale ≤ x) && decide (x ≤ t.high * scale)
  else decide (t.low * scale < x) && decide (x < t.high * scale)

/-- The neighbour of the target on the grid `10 ^ g` that lies in its interval, the nearer one if
both do, and the upper one of two that are equally near. -/
def Target.onGrid? (t : Target) (g : Int) : Option Nat :=
  let scale := Nat.pow 10 (-g).toNat
  let step := t.unit * Nat.pow 10 g.toNat
  let below := t.value * scale / step
  let rest := t.value * scale % step
  match t.contains scale (below * step), t.contains scale ((below + 1) * step) with
  | true, true => some (if 2 * rest < step then below else below + 1)
  | true, false => some below
  | false, true => some (below + 1)
  | false, false => none

/-- The finest grid that is searched lies this many places below the first digit of the integer
part; it covers every finite double. -/
def searchDepth : Nat := 400

/-- The shortest decimal in the interval, as an integer `n` and an exponent `g` for `n * 10 ^ g`. -/
def Target.shortest (t : Target) : Nat × Int :=
  let top : Int := (Nat.toDigits 10 (t.value / t.unit)).length
  let found := (List.range searchDepth).findSome? fun i : Nat ↦
    let g : Int := top - i
    (t.onGrid? g).map (·, g)
  found.getD (t.value / t.unit, 0)

/-- `n * 10 ^ g` in positional notation: no exponent, no point after an integer, and a zero before a
leading point. -/
def positional (n : Nat) (g : Int) : List Char :=
  let digits := Nat.toDigits 10 n
  let places := (-g).toNat
  let padded := List.replicate (places + 1 - digits.length) '0' ++ digits
  let integer := padded.take (padded.length - places) ++ List.replicate g.toNat '0'
  if places = 0 then integer else integer ++ '.' :: padded.drop (padded.length - places)

end A32Assembler.Decimal
