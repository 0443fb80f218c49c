import Statecraft.Source.Action

/-! The definitions at the top level of a program. -/
namespace Statecraft.Source

/-- `[name 'value']` before the name of a state. -/
structure Attribute where
  name : Name
  value : String
  valueSpan : Selection

def Attribute.span (a : Attribute) : Selection := .cover [a.name.span, a.valueSpan]

structure StateEntry where
  name : Name
  attributes : List Attribute

def StateEntry.span (s : StateEntry) : Selection :=
  .cover (s.name.span :: s.attributes.map Attribute.span)

/-- A constant is fixed, a variable can be assigned again. -/
inductive Storage where
  | fixed | assignable
deriving DecidableEq, Repr

/-- `state { … }` -/
structure StateList where
  keyword : Selection
  states : List StateEntry
  closing : Selection

/-- `const name := value;` or `let name := value;` -/
structure Declaration where
  storage : Storage
  keyword : Selection
  name : Name
  value : Expr

/-- `when state { … }` -/
structure WhenBlock where
  keyword : Selection
  state : Name
  body : Block

inductive Definition where
  | states (list : StateList)
  | declaration (declaration : Declaration)
  | whenBlock (block : WhenBlock)

def StateList.span (s : StateList) : Selection := .cover [s.keyword, s.closing]

def Declaration.span (d : Declaration) : Selection :=
  .cover [d.keyword, d.name.span, d.value.span]

def WhenBlock.span (s : WhenBlock) : Selection := .cover [s.keyword, s.body.span]

def Definition.span : Definition → Selection
  | states list => list.span
  | declaration d => d.span
  | whenBlock b => b.span

/-- A program is its definitions in source order. -/
abbrev Program := List Definition

def Program.span (p : Program) : Selection := .cover (p.map Definition.span)

/-- The expression has no unreadable part. -/
def Expr.Complete : Expr → Prop
  | .number .. | .boolean .. | .string .. | .ref _ => True
  | .unary _ _ operand => operand.Complete
  | .binary _ _ left right => left.Complete ∧ right.Complete
  | .invalid => False

mutual

def Action.Complete : Action → Prop
  | .transition .. => True
  | .assignment _ value => value.Complete
  | .conditional _ test body otherwise =>
      test.Complete ∧ body.Complete ∧
        match otherwise with
        | some other => other.Complete
        | none => True
  | .assertion _ test => test.Complete
  | .nested body => body.Complete

def Block.Complete : Block → Prop
  | .braces _ body _ => Action.AllComplete body

def Action.AllComplete : List Action → Prop
  | [] => True
  | a :: rest => a.Complete ∧ Action.AllComplete rest

end

def Definition.Complete : Definition → Prop
  | .states _ => True
  | .declaration x => x.value.Complete
  | .whenBlock b => b.body.Complete

def Program.Complete (p : Program) : Prop := ∀ d ∈ p, d.Complete

end Statecraft.Source
