import Statecraft.Source.Expr
import Statecraft.Code.Instruction
import Statecraft.Report
import Statecraft.Symbol

/-! Code for expressions. The code leaves the value of the expression on the
stack. An expression about which something is reported has the invalid type, and
nothing more is reported about what contains it. -/
namespace Statecraft.Compile

open Source (Expr)

structure ExprCode where
  code : List Instruction
  type : Ty
  reports : List Report

def ExprCode.literal (value : Value) : ExprCode := ⟨[.push value], value.type, []⟩

def undefinedOperator (e : Expr) (description : String) : Report :=
  { kind := .undefinedOperator, selection := e.span, info := description }

def undefinedVariable (name : Source.Name) : Report :=
  { kind := .undefinedVariable, selection := name.span, info := name.text }

def valueSymbol? (symbols : Symbols) (name : String) : Option Symbol :=
  (symbols.find? name).filter fun s => s.kind ≠ .state

def expr (symbols : Symbols) : Expr → ExprCode
  | .number value _ => .literal (.number value)
  | .boolean value _ => .literal (.boolean value)
  | .string value _ => .literal (.string value)
  | .ref name =>
      match valueSymbol? symbols name.text with
      | some s => ⟨[.load name.text], s.type, []⟩
      | none => ⟨[], .invalid, [undefinedVariable name]⟩
  | .unary op opSpan operand =>
      let inner := expr symbols operand
      if !inner.type.isValid then { inner with type := .invalid }
      else
        match op.meaning? inner.type with
        | some meaning =>
            ⟨inner.code ++ [.unary op inner.type], meaning.result, inner.reports⟩
        | none =>
            ⟨inner.code, .invalid,
              inner.reports ++
                [undefinedOperator (.unary op opSpan operand) (op.describe inner.type)]⟩
  | .binary op opSpan left right =>
      let l := expr symbols left
      let r := expr symbols right
      let code := l.code ++ r.code
      let reports := l.reports ++ r.reports
      if !l.type.isValid || !r.type.isValid then ⟨code, .invalid, reports⟩
      else
        match op.meaning? l.type r.type with
        | some meaning => ⟨code ++ [.binary op l.type r.type], meaning.result, reports⟩
        | none =>
            ⟨code, .invalid,
              reports ++
                [undefinedOperator (.binary op opSpan left right)
                  (op.describe l.type r.type)]⟩
  | .invalid => ⟨[], .invalid, []⟩

end Statecraft.Compile
