/-! Reading integers of 64 bits: plain decimals, and literals whose base is given
by their first characters and whose digits may be grouped by underscores. -/
namespace Statecraft.Text

inductive IntegerError where
  | malformed | outOfRange
deriving DecidableEq, Repr

def digit? (c : Char) : Option Nat :=
  if c.isDigit then some (c.toNat - '0'.toNat)
  else if 'a' ≤ c ∧ c ≤ 'z' then some (c.toNat - 'a'.toNat + 10)
  else if 'A' ≤ c ∧ c ≤ 'Z' then some (c.toNat - 'A'.toNat + 10)
  else none

/-- Appends digits to a number, underscores left out. A number that leaves 64 bits
is out of range, whatever follows. -/
def magnitude (base : Nat) (number : Nat) : List Char → Except IntegerError Nat
  | [] => .ok number
  | '_' :: rest => magnitude base number rest
  | c :: rest =>
      match digit? c with
      | none => .error .malformed
      | some d =>
          if base ≤ d then .error .malformed
          else if Nat.pow 2 64 ≤ number * base + d then .error .outOfRange
          else magnitude base (number * base + d) rest

/-- The base of a literal, what follows the mark of the base, and whether that mark
ends in a letter. -/
def baseOf : List Char → Nat × List Char × Bool
  | '0' :: mark :: c :: rest =>
      if mark = 'x' ∨ mark = 'X' then (16, c :: rest, true)
      else if mark = 'o' ∨ mark = 'O' then (8, c :: rest, true)
      else if mark = 'b' ∨ mark = 'B' then (2, c :: rest, true)
      else (8, mark :: c :: rest, false)
  | '0' :: rest => (8, rest, false)
  | cs => (10, cs, false)

/-- Every underscore stands between digits; `after` says that a digit or the mark
of a base came before. -/
def grouped (after : Bool) : List Char → Bool
  | [] => true
  | ['_'] => false
  | '_' :: rest => after && grouped false rest
  | _ :: rest => grouped true rest

def signed : List Char → Bool × List Char
  | '-' :: rest => (true, rest)
  | '+' :: rest => (false, rest)
  | cs => (false, cs)

/-- A number with a sign, if it fits 64 bits. -/
def inRange (negative : Bool) (n : Nat) : Except IntegerError Int :=
  if negative then if n ≤ Nat.pow 2 63 then .ok (-(n : Int)) else .error .outOfRange
  else if n < Nat.pow 2 63 then .ok n else .error .outOfRange

def integerLiteral (text : String) : Except IntegerError Int :=
  let (negative, cs) := signed text.toList
  if cs.isEmpty then .error .malformed
  else
    let (base, digits, marked) := baseOf cs
    match magnitude base 0 digits with
    | .error e => .error e
    | .ok n =>
        if grouped (marked || cs.head? = some '0') digits then inRange negative n
        else .error .malformed

def decimal? (text : String) : Option Int :=
  let (negative, cs) := signed text.toList
  if cs.isEmpty || !cs.all Char.isDigit then none
  else
    match magnitude 10 0 cs with
    | .ok n => (inRange negative n).toOption
    | .error _ => none

end Statecraft.Text
