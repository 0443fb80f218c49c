/-! Doubles as exact numbers. A finite double is a sign, a significand and a
power of two; a quotient of natural numbers is rounded to the nearest double,
and of two equally near ones to the one with the even significand. -/
namespace Statecraft.Double

inductive Exact where
  | notANumber
  | infinite (negative : Bool)
  /-- The number `significand * 2 ^ exponent`, negated when `negative`. -/
  | finite (negative : Bool) (significand : Nat) (exponent : Int)
deriving DecidableEq, Repr

/-- The significands of normal doubles start here and end before twice this. -/
def hidden : Nat := Nat.pow 2 52

/-- The power of two of the smallest doubles. -/
def leastExponent : Int := -1074

/-- The power of two of the largest doubles. -/
def greatestExponent : Int := 971

/-- Reads sign, exponent and fraction off the bits. -/
def exact (x : Float) : Exact :=
  let bits := x.toBits.toNat
  let negative := bits / Nat.pow 2 63 = 1
  let exponent := bits / hidden % 2048
  let fraction := bits % hidden
  if exponent = 2047 then
    if fraction = 0 then .infinite negative else .notANumber
  else if exponent = 0 then .finite negative fraction leastExponent
  else .finite negative (hidden + fraction) ((exponent : Int) - 1075)

/-- The double with the given significand and power of two, which have to be in
range and normal unless the power is the least. -/
def ofParts (significand : Nat) (exponent : Int) : Float :=
  let bits :=
    if significand < hidden then significand
    else (exponent + 1075).toNat * hidden + (significand - hidden)
  Float.ofBits (UInt64.ofNat bits)

/-- The quotient rounded to a whole number; a half goes to the even neighbour. -/
def roundHalfEven (num den : Nat) : Nat :=
  let whole := num / den
  let rest := num % den
  if den < 2 * rest ∨ (2 * rest = den ∧ whole % 2 = 1) then whole + 1 else whole

/-- Numerator and denominator of `num / den / 2 ^ exponent`. -/
def scaled (num den : Nat) (exponent : Int) : Nat × Nat :=
  (num * Nat.pow 2 (-exponent).toNat, den * Nat.pow 2 exponent.toNat)

/-- The power of two at which the quotient's significand has 53 bits. -/
def normalExponent (num den : Nat) : Int :=
  let guess : Int := (num.log2 : Int) - den.log2 - 52
  let (n, d) := scaled num den guess
  if n / d < hidden then guess - 1 else guess

/-- The nearest double to `num / den`, or none when it is too large for one. -/
def nearest? (num den : Nat) : Option Float :=
  if num = 0 then some (ofParts 0 leastExponent)
  else
    let exponent := max (normalExponent num den) leastExponent
    let (n, d) := scaled num den exponent
    let rounded := roundHalfEven n d
    let (significand, exponent) :=
      if rounded = 2 * hidden then (hidden, exponent + 1) else (rounded, exponent)
    if greatestExponent < exponent then none else some (ofParts significand exponent)

def withSign (negative : Bool) (x : Float) : Float := if negative then -x else x

end Statecraft.Double
