import Statecraft.Double.Layout

/-! The types of the language and the values of a running program. -/
namespace Statecraft

/-- A static type. `invalid` is the type of an expression about which something
was reported already. A number outside the declared types is kept as `unlisted`. -/
inductive Ty where
  | invalid | number | string | boolean
  | unlisted (code : Int)
deriving DecidableEq, Repr, Inhabited

namespace Ty

def all : List Ty := [invalid, number, string, boolean]

def ofCode : Int → Ty
  | 0 => invalid
  | 1 => number
  | 2 => string
  | 3 => boolean
  | code => unlisted code

def name : Ty → String
  | invalid => "<invalid>"
  | number => "number"
  | string => "string"
  | boolean => "boolean"
  | unlisted code => "Type(" ++ toString code ++ ")"

def isValid : Ty → Bool
  | number | string | boolean => true
  | _ => false

/-- A value of the first type may be stored under a name of the second. -/
def assignableTo (t other : Ty) : Bool := t.isValid && t = other

end Ty

/-- A value. `none` has the type `invalid`; no expression evaluates to it. -/
inductive Value where
  | none
  | number (x : Float)
  | string (s : String)
  | boolean (b : Bool)
deriving Inhabited

namespace Value

def type : Value → Ty
  | none => .invalid
  | number _ => .number
  | string _ => .string
  | boolean _ => .boolean

def toNumber : Value → Float
  | number x => x
  | _ => 0

def toString : Value → String
  | string s => s
  | _ => ""

def toBool : Value → Bool
  | boolean b => b
  | _ => false

/-- Same type and same content. Numbers are compared as numbers: the two zeros
are equal, and a NaN equals nothing. -/
def equal : Value → Value → Bool
  | none, none => true
  | number x, number y => x == y
  | string s, string t => s == t
  | boolean a, boolean b => a == b
  | _, _ => false

/-- The value as a program writes it; strings are not escaped. -/
def text : Value → String
  | none => "<invalid>"
  | number x => Double.Layout.program.text x
  | string s => "'" ++ s ++ "'"
  | boolean b => if b then "true" else "false"

end Value
end Statecraft
