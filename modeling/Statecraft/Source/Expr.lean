import Statecraft.Operator
import Statecraft.Position

/-! Expressions as they are written in a program. -/
namespace Statecraft.Source

structure Name where
  text : String
  span : Selection
deriving DecidableEq, Repr, Inhabited

/-- An expression. `invalid` stands for one that could not be read. -/
inductive Expr where
  | number (value : Float) (span : Selection)
  | boolean (value : Bool) (span : Selection)
  | string (value : String) (span : Selection)
  | ref (name : Name)
  | unary (op : UnaryOp) (opSpan : Selection) (operand : Expr)
  | binary (op : BinaryOp) (opSpan : Selection) (left right : Expr)
  | invalid
deriving Inhabited

namespace Expr

def span : Expr → Selection
  | number _ span | boolean _ span | string _ span => span
  | ref name => name.span
  | unary _ opSpan operand => .cover [opSpan, operand.span]
  | binary _ opSpan left right => .cover [left.span, opSpan, right.span]
  | invalid => .absent

def reads : Expr → List String
  | ref name => [name.text]
  | unary _ _ operand => operand.reads
  | binary _ _ left right => left.reads ++ right.reads
  | _ => []

/-- The expression with every compound part in parentheses. -/
def text : Expr → String
  | number value _ => Double.Layout.program.text value
  | boolean value _ => if value then "true" else "false"
  | string value _ => "'" ++ value ++ "'"
  | ref name => name.text
  | unary op _ operand =>
      "(" ++ op.symbol ++ (if op = .not then " " else "") ++ operand.text ++ ")"
  | binary op _ left right =>
      "(" ++ left.text ++ " " ++ op.symbol ++ " " ++ right.text ++ ")"
  | invalid => "<invalid>"

end Expr
end Statecraft.Source
