import Statecraft.Double.Exact

/-! The fewest decimal digits that read back as the same double, and of several
such decimals the nearest. The reals that round to a double form an interval
around it; grids of one, two, three … digits are tried until one of the double's
two neighbours on the grid lies in that interval. -/
namespace Statecraft.Double

/-- A decimal `digits * 10 ^ exponent`. -/
structure Decimal where
  digits : Nat
  exponent : Int
deriving DecidableEq, Repr

def digitCount (n : Nat) : Nat := if n = 0 then 0 else (Nat.toDigits 10 n).length

/-- The power of ten of the first digit of `num / den`. -/
def leadingPower (num den : Nat) : Int :=
  if den ≤ num then (digitCount (num / den) : Int) - 1
  else -(digitCount ((den - 1) / num) : Int)

/-- The reals that round to `significand * 2 ^ exponent`, in quarters of its unit.
Below a power of two the doubles lie closer together. -/
structure Interval where
  low : Nat
  middle : Nat
  high : Nat
  /-- Whether the ends belong to it. -/
  closed : Bool

def interval (significand : Nat) (exponent : Int) : Interval where
  low := 4 * significand - (if significand = hidden ∧ leastExponent < exponent then 1 else 2)
  middle := 4 * significand
  high := 4 * significand + 2
  closed := significand % 2 = 0

/-- Tests and measures `n * 10 ^ power` against the interval, both brought to a
common denominator: a quarter of the double's unit is `2 ^ quarter`. -/
structure Grid where
  interval : Interval
  /-- Multiplies a point of the grid. -/
  point : Nat
  /-- Multiplies a bound of the interval. -/
  bound : Nat

namespace Grid

def ofPower (interval : Interval) (quarter power : Int) : Grid where
  interval := interval
  point := Nat.pow 10 power.toNat * Nat.pow 2 (-quarter).toNat
  bound := Nat.pow 10 (-power).toNat * Nat.pow 2 quarter.toNat

def hits (g : Grid) (n : Nat) : Bool :=
  let point := n * g.point
  let low := g.interval.low * g.bound
  let high := g.interval.high * g.bound
  if g.interval.closed then low ≤ point && point ≤ high else low < point && point < high

def below (g : Grid) : Nat := g.interval.middle * g.bound / g.point

/-- Twice the distance from the lower neighbour, less one grid step. -/
def tilt (g : Grid) : Int :=
  2 * ((g.interval.middle * g.bound - g.below * g.point : Nat) : Int) - (g.point : Int)

/-- The neighbour that reads back as the double, the nearer if both do; the even
one if both are equally near. -/
def choose? (g : Grid) : Option Nat :=
  let n := g.below
  match g.hits n, g.hits (n + 1) with
  | true, true =>
      if g.tilt < 0 then some n
      else if 0 < g.tilt then some (n + 1)
      else if n % 2 = 0 then some n else some (n + 1)
  | true, false => some n
  | false, true => some (n + 1)
  | false, false => none

end Grid

/-- Drops zeros at the end; `fuel` bounds their number. -/
def dropZeros : Nat → Decimal → Decimal
  | 0, d => d
  | fuel + 1, d =>
      if d.digits % 10 = 0 ∧ d.digits ≠ 0 then dropZeros fuel ⟨d.digits / 10, d.exponent + 1⟩
      else d

/-- Tries the grids of `count`, `count + 1`, … digits, `fuel` of them. -/
def search (interval : Interval) (quarter leading : Int) : Nat → Nat → Option Decimal
  | 0, _ => none
  | fuel + 1, count =>
      let power := leading - count + 1
      match (Grid.ofPower interval quarter power).choose? with
      | some n => some (dropZeros 20 ⟨n, power⟩)
      | none => search interval quarter leading fuel (count + 1)

/-- The shortest decimal of a positive double. Seventeen digits always suffice. -/
def shortest (significand : Nat) (exponent : Int) : Decimal :=
  let (num, den) := scaled significand 1 (-exponent)
  (search (interval significand exponent) (exponent - 2) (leadingPower num den) 17 1).getD ⟨0, 0⟩

end Statecraft.Double
