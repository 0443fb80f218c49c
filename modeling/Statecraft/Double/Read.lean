import Statecraft.Double.Exact
import Statecraft.Text.Integer

/-! Reading numbers. A literal of the language is digits with an optional fraction
and an optional power of ten. Any number text may also have a sign, be written in
hexadecimal with a power of two, have its digits grouped by underscores, or name
a number that is not finite. The result is the nearest double. -/
namespace Statecraft.Double

def natOfDigits (digits : List Char) : Nat :=
  digits.foldl (fun n c => 10 * n + (c.toNat - '0'.toNat)) 0

/-- An unsigned number `digits * base ^ exponent` before rounding. -/
structure Literal where
  digits : Nat
  base : Nat
  exponent : Int

/-- The power written by decimal digits. Digits after it has reached ten thousand
do not count. -/
def cappedPower (digits : List Char) : Nat :=
  digits.foldl (fun n c => if n < 10000 then 10 * n + (c.toNat - '0'.toNat) else n) 0

def power? (cs : List Char) : Option Int :=
  let (negative, digits) := Text.signed cs
  if digits.isEmpty || !digits.all Char.isDigit then none
  else
    let n : Int := cappedPower digits
    some (if negative then -n else n)

/-- The exponent part; an absent one is zero. -/
def exponentPart? : List Char → Option Int
  | [] => some 0
  | e :: rest => if e = 'e' || e = 'E' then power? rest else none

/-- Digits, the digits after a point if there is one, and the rest. -/
def splitPoint (isDigit : Char → Bool) (cs : List Char) : List Char × List Char × List Char :=
  let whole := cs.takeWhile isDigit
  match cs.dropWhile isDigit with
  | '.' :: more => (whole, more.takeWhile isDigit, more.dropWhile isDigit)
  | rest => (whole, [], rest)

/-- Digits, fraction and exponent; at least one digit is needed. -/
def literal? (cs : List Char) : Option Literal :=
  let (whole, fraction, rest) := splitPoint Char.isDigit cs
  if whole.isEmpty && fraction.isEmpty then none
  else
    (exponentPart? rest).map fun power =>
      ⟨natOfDigits (whole ++ fraction), 10, power - fraction.length⟩

/-- The nearest double to a literal, or none when it is too large. A number of more
than 1100 binary places is too large and one with as many zeros after the point is
nearest to zero, which spares the powers of enormous exponents. -/
def Literal.nearest? (l : Literal) : Option Float :=
  let places := (l.base.log2 : Int) * l.exponent
  if l.digits = 0 ∨ (l.digits.log2 : Int) + 1101 + places < 0 then
    some (ofParts 0 leastExponent)
  else if 1100 < places then none
  else
    Double.nearest? (l.digits * Nat.pow l.base l.exponent.toNat)
      (Nat.pow l.base (-l.exponent).toNat)

/-- The double of an unsigned decimal literal, unless it is malformed or too large. -/
def ofLiteral? (text : String) : Option Float := (literal? text.toList).bind Literal.nearest?

def isHexDigit (c : Char) : Bool := (Text.digit? c).any (· < 16)

def hexLiteral? (cs : List Char) : Option Literal :=
  let (whole, fraction, rest) := splitPoint isHexDigit cs
  let number := (whole ++ fraction).foldl (fun n c => 16 * n + (Text.digit? c).getD 0) 0
  match rest with
  | p :: power =>
      if (whole.isEmpty && fraction.isEmpty) || (p ≠ 'p' && p ≠ 'P') then none
      else (power? power).map fun power => ⟨number, 2, power - 4 * fraction.length⟩
  | [] => none

/-- Every underscore stands between two digits; `after` says that a digit or the
mark of a base came before. -/
def dividesDigits (isDigit : Char → Bool) (after : Bool) : List Char → Bool
  | [] => true
  | '_' :: rest => after && rest.head?.any isDigit && dividesDigits isDigit false rest
  | c :: rest => dividesDigits isDigit (isDigit c) rest

/-- An unsigned number text, decimal or hexadecimal, with underscores. -/
def anyLiteral? (cs : List Char) : Option Literal :=
  let plain (digits : List Char) : List Char := digits.filter (· ≠ '_')
  match cs with
  | '0' :: x :: digits =>
      if x = 'x' || x = 'X' then
        if dividesDigits isHexDigit true digits then hexLiteral? (plain digits) else none
      else if dividesDigits Char.isDigit false cs then literal? (plain cs) else none
  | _ => if dividesDigits Char.isDigit false cs then literal? (plain cs) else none

def infinity : Float := 1.0 / 0.0

/-- The double of any number text, the names of non-finite numbers included. Letters
may be large or small. A number that is too large is infinite. -/
def read? (text : String) : Option Float :=
  let (negative, cs) := Text.signed text.toList
  let name := String.ofList (cs.map Char.toLower)
  if name = "inf" ∨ name = "infinity" then some (withSign negative infinity)
  else if name = "nan" ∧ cs = text.toList then some (0.0 / 0.0)
  else (anyLiteral? cs).map fun l => withSign negative (l.nearest?.getD infinity)

end Statecraft.Double
