import Statecraft.Source.Action
import Statecraft.Parser
import Statecraft.Double.Read

/-! The grammar of expressions, one level per precedence:

    or       = and ("or" and)*
    and      = not ("and" not)*
    not      = "not" relation | relation
    relation = term (relational-operator term)?
    term     = factor (("+" | "-") factor)*
    factor   = sign (("*" | "/" | "%") sign)*
    sign     = ("+" | "-") primary | primary
    primary  = number | boolean | string | identifier | "(" or ")"

An operand that is missing is reported and stands as `invalid`. -/
namespace Statecraft.Source

/-- The rules that refer to themselves. -/
inductive Rule : Type → Type where
  | expression : Rule Expr
  | block : Rule Block

def Name.ofToken (t : Token) : Name := ⟨t.text, t.span⟩

/-- The text between the quotes of a string token. -/
def unquoted (text : String) : String := String.ofList (text.toList.drop 1).dropLast

def BinaryOp.ofToken (t : Token) : BinaryOp :=
  match t.kind with
  | .orWord => .or
  | .andWord => .and
  | .equal => .equal
  | .notEqual => .notEqual
  | .less => .less
  | .lessEqual => .lessOrEqual
  | .greater => .greater
  | .greaterEqual => .greaterOrEqual
  | .minus => .subtract
  | .times => .multiply
  | .divide => .divide
  | .modulo => .modulo
  | _ => .add

def UnaryOp.ofToken (t : Token) : UnaryOp :=
  match t.kind with
  | .minus => .negate
  | .notWord => .not
  | _ => .plus

namespace Expr

/-- The literal of a number token. One too large for a double cannot be read. -/
def ofNumber (t : Token) : Expr :=
  match Double.ofLiteral? t.text with
  | some value => .number value t.span
  | none => .invalid

def ofBoolean (t : Token) : Expr := .boolean (t.text = "true") t.span

def ofString (t : Token) : Expr := .string (unquoted t.text) t.span

def infixed (left : Expr) (op : Token) (right : Expr) : Expr :=
  .binary (BinaryOp.ofToken op) op.span left right

def prefixed (op : Token) (operand : Expr) : Expr :=
  .unary (UnaryOp.ofToken op) op.span operand

end Expr

namespace Grammar

open Statecraft.Parser (token succeed call oneOf anyToken chain)

def literal : Parser Rule Expr :=
  oneOf ((token .number).map Expr.ofNumber)
    [(token .boolean).map Expr.ofBoolean,
      (token .string).map Expr.ofString,
      (token .identifier).map fun t => .ref (.ofToken t)]

def parenthesized : Parser Rule Expr :=
  (token .openParen).andThen
    ((call .expression).bind fun inner =>
      ((token .closeParen).as inner).recover (succeed inner))

/-- An operand; it is never missing without a report. -/
def primary : Parser Rule Expr :=
  parenthesized.orElse (literal.recoverAs .valueExpressionExpected (succeed .invalid))

def signed (operand : Parser Rule Expr) (first : TokenKind) (others : List TokenKind) :
    Parser Rule Expr :=
  ((anyToken first others).bind fun op => operand.map (Expr.prefixed op)).orElse operand

/-- Operands joined from the left by the operators of one level. -/
def level (operand : Parser Rule Expr) (first : TokenKind) (others : List TokenKind) :
    Parser Rule Expr :=
  chain operand (anyToken first others) Expr.infixed

def sign : Parser Rule Expr := signed primary .plus [.minus]

def factor : Parser Rule Expr := level sign .times [.divide, .modulo]

def term : Parser Rule Expr := level factor .plus [.minus]

def relation : Parser Rule Expr :=
  term.bind fun left =>
    ((anyToken .notEqual [.equal, .lessEqual, .less, .greaterEqual, .greater]).bind fun op =>
      term.map (Expr.infixed left op)).optional left

def negation : Parser Rule Expr := signed relation .notWord []

def conjunction : Parser Rule Expr := level negation .andWord []

def expression : Parser Rule Expr := level conjunction .orWord []

end Grammar
end Statecraft.Source
