import Statecraft.Compile.Expr
import Statecraft.Code.Builder
import Statecraft.Source.Action

/-! Code for actions. Actions after one that ends in a transition are reported
once and not compiled. Fresh labels are numbered by a counter that is handed on. -/
namespace Statecraft.Compile

open Source (Action Block Expr Name)

structure Scope where
  symbols : Symbols
  /-- The declared states. -/
  states : List String
  /-- The states that have a when-block. -/
  withBlock : List String

structure ActionCode where
  code : List Instruction
  reports : List Report
  /-- The targets of the compiled transitions, declared or not. -/
  targets : List String
  /-- The names looked up. -/
  used : List String
  /-- How many fresh labels were made so far. -/
  counter : Nat
  /-- The target of the transition that control cannot get past. -/
  terminator : Option Name

namespace ActionCode

def none (counter : Nat) : ActionCode := ⟨[], [], [], [], counter, Option.none⟩

/-- One after the other; the second was compiled with the counter of the first. -/
def append (a b : ActionCode) : ActionCode :=
  ⟨a.code ++ b.code, a.reports ++ b.reports, a.targets ++ b.targets, a.used ++ b.used, b.counter,
    b.terminator⟩

end ActionCode

def mismatch (e : Expr) (expected actual : Ty) : Report :=
  { kind := .typeError, selection := e.span
    info := "expected " ++ expected.name ++ ", got " ++ actual.name }

/-- Compiles an expression that has to be a truth value. -/
def condition (symbols : Symbols) (e : Expr) : ExprCode :=
  let compiled := expr symbols e
  if compiled.type.isValid && compiled.type ≠ .boolean then
    { compiled with reports := compiled.reports ++ [mismatch e .boolean compiled.type] }
  else compiled

/-- `state := target;` goes on in the target's when-block or stops. -/
def transition (scope : Scope) (counter : Nat) (a : Action) (target : Name) : ActionCode where
  code :=
    [.location a.span, .transition target.text] ++
      (if target.text ∈ scope.withBlock then [.jump target.text] else []) ++
      [.exit .finalStateReached]
  reports :=
    if target.text ∈ scope.states then []
    else [{ kind := .undefinedState, selection := target.span, info := target.text }]
  targets := [target.text]
  used := if target.text ∈ scope.states then [target.text] else []
  counter := counter
  terminator := some target

/-- What an assignment to a name needs, and what is wrong with the name. -/
def assigned (symbols : Symbols) (name : Name) : Ty × List Report :=
  match valueSymbol? symbols name.text with
  | none => (.invalid, [undefinedVariable name])
  | some s =>
      if s.kind.canAssign then (s.type, [])
      else
        (.invalid, [{ kind := .constantAssignment, selection := name.span, info := name.text }])

def assignment (scope : Scope) (counter : Nat) (a : Action) (name : Name) (value : Expr) :
    ActionCode :=
  let (expected, problems) := assigned scope.symbols name
  let compiled := expr scope.symbols value
  let wrong :=
    if compiled.type.isValid && expected.isValid && !compiled.type.assignableTo expected then
      [mismatch value expected compiled.type]
    else []
  { code := .location a.span :: compiled.code ++ [.store name.text]
    reports := problems ++ compiled.reports ++ wrong
    targets := []
    used := name.text :: value.reads
    counter := counter
    terminator := none }

/-- `assert test;` stops the program when the test is false. -/
def assertion (scope : Scope) (counter : Nat) (a : Action) (test : Expr) : ActionCode :=
  let compiled := condition scope.symbols test
  let failed := Code.Builder.freshName "assert_fail" (counter + 1)
  let passed := Code.Builder.freshName "assert_ok" (counter + 2)
  { code :=
      .location a.span :: compiled.code ++
        [.jumpIfNot failed, .jump passed, .label failed, .exit .assertionFailed, .label passed]
    reports := compiled.reports
    targets := []
    used := test.reads
    counter := counter + 2
    terminator := none }

/-- The code of both branches around the jumps of a conditional. `body` and
`otherwise` were compiled one after the other from two past the counter on. -/
def conditional (scope : Scope) (counter : Nat) (keyword : Selection) (test : Expr)
    (body otherwise : ActionCode) : ActionCode :=
  let compiled := condition scope.symbols test
  let skip := Code.Builder.freshName "if_false" (counter + 1)
  let done := Code.Builder.freshName "if_end" (counter + 2)
  { code :=
      .location (.hullAll [keyword, test.span]) :: compiled.code ++
        .jumpIfNot skip :: body.code ++ [.jump done, .label skip] ++ otherwise.code ++
        [.label done]
    reports := compiled.reports ++ body.reports ++ otherwise.reports
    targets := body.targets ++ otherwise.targets
    used := test.reads ++ body.used ++ otherwise.used
    counter := otherwise.counter
    terminator := none }

def unreachable (target : Name) : Report :=
  { kind := .unreachableCode, selection := .char (target.span.stop.shift 0 1) }

mutual

def action (scope : Scope) (counter : Nat) : Action → ActionCode
  | .transition keyword target =>
      transition scope counter (.transition keyword target) target
  | .assignment name value => assignment scope counter (.assignment name value) name value
  | .conditional keyword test body otherwise =>
      let first := block scope (counter + 2) body
      let second :=
        match otherwise with
        | some other => block scope first.counter other
        | none => .none first.counter
      conditional scope counter keyword test first second
  | .assertion keyword test => assertion scope counter (.assertion keyword test) test
  | .nested body => block scope counter body

def block (scope : Scope) (counter : Nat) : Block → ActionCode
  | .braces _ body _ => actions scope counter body

/-- Compiles actions up to the first that control cannot get past. -/
def actions (scope : Scope) (counter : Nat) : List Action → ActionCode
  | [] => .none counter
  | a :: rest =>
      let first := action scope counter a
      match first.terminator with
      | some target =>
          if rest.isEmpty then first
          else { first with reports := first.reports ++ [unreachable target] }
      | none => first.append (actions scope first.counter rest)

end

end Statecraft.Compile
