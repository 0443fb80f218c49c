import Statecraft.Value
import Statecraft.Double.Remainder

/-! The operators of the language. One table says for which operand types an
operator is defined, what type its result has and how it is computed; the
compiler and the machine both use it. -/
namespace Statecraft

inductive UnaryOp where
  | plus | negate | not
  | unlisted (code : Int)
deriving DecidableEq, Repr, Inhabited

namespace UnaryOp

def all : List UnaryOp := [plus, negate, not]

def ofCode : Int → UnaryOp
  | .ofNat n => all[n]?.getD (.unlisted n)
  | code => .unlisted code

def symbol : UnaryOp → String
  | plus => "+"
  | negate => "-"
  | not => "not"
  | unlisted _ => "?"

end UnaryOp

inductive BinaryOp where
  | add | subtract | multiply | divide | modulo
  | equal | notEqual | less | lessOrEqual | greater | greaterOrEqual
  | and | or
  | unlisted (code : Int)
deriving DecidableEq, Repr, Inhabited

namespace BinaryOp

def all : List BinaryOp :=
  [add, subtract, multiply, divide, modulo, equal, notEqual, less, lessOrEqual, greater,
    greaterOrEqual, and, or]

def ofCode : Int → BinaryOp
  | .ofNat n => all[n]?.getD (.unlisted n)
  | code => .unlisted code

def symbol : BinaryOp → String
  | add => "+"
  | subtract => "-"
  | multiply => "*"
  | divide => "/"
  | modulo => "%"
  | equal => "="
  | notEqual => "!="
  | less => "<"
  | lessOrEqual => "<="
  | greater => ">"
  | greaterOrEqual => ">="
  | and => "and"
  | or => "or"
  | unlisted _ => "?"

end BinaryOp

/-- What an operator does with one operand of a given type. -/
structure UnaryMeaning where
  result : Ty
  apply : Value → Value

structure BinaryMeaning where
  result : Ty
  apply : Value → Value → Value

namespace UnaryOp

def describe (op : UnaryOp) (t : Ty) : String :=
  if op = not then op.symbol ++ " " ++ t.name else op.symbol ++ t.name

def meaning? : UnaryOp → Ty → Option UnaryMeaning
  | plus, .number => some ⟨.number, fun v => v⟩
  | negate, .number => some ⟨.number, fun v => .number (-v.toNumber)⟩
  | not, .boolean => some ⟨.boolean, fun v => .boolean (!v.toBool)⟩
  | _, _ => none

end UnaryOp

namespace BinaryOp

def describe (op : BinaryOp) (left right : Ty) : String :=
  left.name ++ " " ++ op.symbol ++ " " ++ right.name

def arithmetic (f : Float → Float → Float) : BinaryMeaning :=
  ⟨.number, fun l r => .number (f l.toNumber r.toNumber)⟩

def comparison (f : Float → Float → Bool) : BinaryMeaning :=
  ⟨.boolean, fun l r => .boolean (f l.toNumber r.toNumber)⟩

def logical (f : Bool → Bool → Bool) : BinaryMeaning :=
  ⟨.boolean, fun l r => .boolean (f l.toBool r.toBool)⟩

/-- Equality or its negation. -/
def equality (expected : Bool) : BinaryMeaning :=
  ⟨.boolean, fun l r => .boolean (l.equal r == expected)⟩

def meaning? : BinaryOp → Ty → Ty → Option BinaryMeaning
  | add, .number, .number => some (arithmetic (· + ·))
  | subtract, .number, .number => some (arithmetic (· - ·))
  | multiply, .number, .number => some (arithmetic (· * ·))
  | divide, .number, .number => some (arithmetic (· / ·))
  | modulo, .number, .number => some (arithmetic Double.remainder)
  | equal, .number, .number => some (equality true)
  | notEqual, .number, .number => some (equality false)
  | less, .number, .number => some (comparison fun a b => a < b)
  | lessOrEqual, .number, .number => some (comparison fun a b => a ≤ b)
  | greater, .number, .number => some (comparison fun a b => b < a)
  | greaterOrEqual, .number, .number => some (comparison fun a b => b ≤ a)
  | add, .string, .string => some ⟨.string, fun l r => .string (l.toString ++ r.toString)⟩
  | equal, .string, .string => some (equality true)
  | notEqual, .string, .string => some (equality false)
  | and, .boolean, .boolean => some (logical (· && ·))
  | or, .boolean, .boolean => some (logical (· || ·))
  | equal, .boolean, .boolean => some (equality true)
  | notEqual, .boolean, .boolean => some (equality false)
  | _, _, _ => none

end BinaryOp
end Statecraft
