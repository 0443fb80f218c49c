import Statecraft.Double.Shortest

/-! The text of a double: positional for moderate exponents, otherwise in
scientific form with a signed exponent of at least two digits. -/
namespace Statecraft.Double

/-- Which numbers are written positionally: those whose first digit has a power
of ten from `least` up to but not including `ceiling`. -/
structure Layout where
  least : Int
  ceiling : Int

namespace Layout

/-- Numbers of programs: positional from 0.0001 up to six digits before the point. -/
def program : Layout := ⟨-4, 6⟩

def zeros (n : Nat) : List Char := List.replicate n '0'

/-- Digits before and after the point, for a first digit of the given power. -/
def positional (digits : List Char) (leading : Int) : List Char :=
  if leading < 0 then
    '0' :: '.' :: (zeros (-leading - 1).toNat ++ digits)
  else
    let whole := leading.toNat + 1
    let before := digits.take whole ++ zeros (whole - digits.length)
    if digits.length ≤ whole then before else before ++ '.' :: digits.drop whole

def scientific (digits : List Char) (leading : Int) : List Char :=
  let fraction :=
    match digits.drop 1 with
    | [] => []
    | rest => '.' :: rest
  let power := Nat.toDigits 10 leading.natAbs
  digits.take 1 ++ fraction ++ ['e', if leading < 0 then '-' else '+'] ++
    zeros (2 - power.length) ++ power

def write (layout : Layout) (d : Decimal) : List Char :=
  let digits := Nat.toDigits 10 d.digits
  let leading := (digits.length : Int) - 1 + d.exponent
  if leading < layout.least ∨ layout.ceiling ≤ leading then scientific digits leading
  else positional digits leading

/-- The text of a double. Zero keeps its sign. -/
def text (layout : Layout) (x : Float) : String :=
  match exact x with
  | .notANumber => "NaN"
  | .infinite negative => if negative then "-Inf" else "+Inf"
  | .finite negative significand exponent =>
      let magnitude :=
        if significand = 0 then ['0'] else layout.write (shortest significand exponent)
      String.ofList (if negative then '-' :: magnitude else magnitude)

end Layout
end Statecraft.Double
