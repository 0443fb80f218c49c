import Statecraft.Text.Integer

/-! Spans of time as they are written on the command line: numbers with units, such
as `1h30m` or `1.5s`, counted in nanoseconds. -/
namespace Statecraft.Text

def unit? (name : String) : Option Nat :=
  match name with
  | "ns" => some 1
  | "us" | "µs" | "μs" => some 1000
  | "ms" => some 1000000
  | "s" => some 1000000000
  | "m" => some 60000000000
  | "h" => some 3600000000000
  | _ => none

def digits (cs : List Char) : Nat := cs.foldl (fun n c => n * 10 + (c.toNat - '0'.toNat)) 0

/-- One number with its unit, in whole nanoseconds. -/
structure Span where
  nanoseconds : Nat
  rest : List Char

/-- The digits after a point, if there is one. -/
def fractionOf : List Char → List Char × List Char
  | '.' :: rest => (rest.takeWhile Char.isDigit, rest.dropWhile Char.isDigit)
  | cs => ([], cs)

/-- A fraction as a whole number and the power of ten it is to be divided by. -/
structure Fraction where
  number : Nat
  scale : Float

/-- Appends digits to a fraction. Digits from the first on that takes the number
past 63 bits are left out. -/
def Fraction.append (f : Fraction) : List Char → Fraction
  | [] => f
  | c :: rest =>
      let next := f.number * 10 + (c.toNat - '0'.toNat)
      if (Nat.pow 2 63 - 1) / 10 < f.number ∨ Nat.pow 2 63 < next then f
      else append ⟨next, f.scale * 10⟩ rest

/-- The whole nanoseconds in a fraction of a unit, computed in double precision. -/
def Fraction.nanoseconds (f : Fraction) (unit : Nat) : Nat :=
  if f.number = 0 then 0
  else
    ((UInt64.ofNat f.number).toFloat * ((UInt64.ofNat unit).toFloat / f.scale)).toUInt64.toNat

/-- Reads a number with its unit. A part of a nanosecond is dropped. -/
def span? (cs : List Char) : Option Span :=
  let whole := cs.takeWhile Char.isDigit
  let (fraction, rest) := fractionOf (cs.dropWhile Char.isDigit)
  let isUnit (c : Char) : Bool := !(c = '.' || c.isDigit)
  if whole.isEmpty && fraction.isEmpty then none
  else
    match unit? (String.ofList (rest.takeWhile isUnit)) with
    | none => none
    | some unit =>
        let count := digits whole * unit + (Fraction.append ⟨0, 1⟩ fraction).nanoseconds unit
        if Nat.pow 2 63 < digits whole * unit ∨ Nat.pow 2 63 < count then none
        else some ⟨count, rest.dropWhile isUnit⟩

/-- Adds up spans to the end of the text; there are no more than `fuel`. The sum is
kept in 64 bits, so twice 63 bits make nothing. -/
def spans? : Nat → Nat → List Char → Option Nat
  | _, sum, [] => some sum
  | 0, _, _ => none
  | fuel + 1, sum, cs =>
      match span? cs with
      | none => none
      | some span =>
          let total := (sum + span.nanoseconds) % Nat.pow 2 64
          if Nat.pow 2 63 < total then none else spans? fuel total span.rest

/-- Reads a duration. A zero needs no unit. -/
def duration? (text : String) : Option Int :=
  let (negative, cs) := signed text.toList
  match cs with
  | [] => none
  | ['0'] => some 0
  | cs =>
      match spans? cs.length 0 cs with
      | none => none
      | some sum =>
          if negative then some (-(sum : Int))
          else if sum < Nat.pow 2 63 then some sum
          else none

end Statecraft.Text
