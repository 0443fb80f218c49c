import Statecraft.Token

/-! Problems found in a program: what is wrong, how bad it is, where it is and
how it is put into words. -/
namespace Statecraft

/-- How bad a problem is, from mild to grave. -/
inductive Severity where
  | info | warning | error
  | unlisted (code : Int)
deriving DecidableEq, Repr

namespace Severity

def ofCode : Int → Severity
  | 0 => info
  | 1 => warning
  | 2 => error
  | code => unlisted code

def code : Severity → Int
  | info => 0
  | warning => 1
  | error => 2
  | unlisted code => code

def name : Severity → String
  | info => "INFO"
  | warning => "WARNING"
  | error => "ERROR"
  | unlisted _ => "UNKNOWN"

def label : Severity → String
  | info => "info"
  | warning => "warning"
  | error => "error"
  | unlisted _ => "unknown"

end Severity

/-- What is wrong. A number outside the declared kinds is kept as `unlisted`. -/
inductive ReportKind where
  | invalidToken
  | unexpectedToken | unexpectedEndOfInput | endOfInputExpected
  | valueExpressionExpected | conditionExpected
  | ambiguousDefinition | missingStateDefinition | tooLittleStates | duplicateIdentifier
  | undefinedOperator | undefinedVariable | undefinedState | constantAssignment | typeError
  | unreachableCode | unreachableState
  | unlisted (code : Int)
deriving DecidableEq, Repr, Inhabited

namespace ReportKind

def all : List ReportKind :=
  [invalidToken, unexpectedToken, unexpectedEndOfInput, endOfInputExpected,
    valueExpressionExpected, conditionExpected, ambiguousDefinition, missingStateDefinition,
    tooLittleStates, duplicateIdentifier, undefinedOperator, undefinedVariable, undefinedState,
    constantAssignment, typeError, unreachableCode, unreachableState]

def ofCode : Int → ReportKind
  | .ofNat n => all[n]?.getD (.unlisted n)
  | code => .unlisted code

def name : ReportKind → String
  | invalidToken => "INVALID_TOKEN"
  | unexpectedToken => "UNEXPECTED_TOKEN"
  | unexpectedEndOfInput => "UNEXPECTED_END_OF_INPUT"
  | endOfInputExpected => "END_OF_INPUT_EXPECTED"
  | valueExpressionExpected => "VALUE_EXPRESSION_EXPECTED"
  | conditionExpected => "CONDITION_EXPECTED"
  | ambiguousDefinition => "AMBIGUOUS_DEFINITION"
  | missingStateDefinition => "MISSING_STATE_DEFINITION"
  | tooLittleStates => "TOO_LITTLE_STATES"
  | duplicateIdentifier => "DUPLICATE_IDENTIFIER"
  | undefinedOperator => "UNDEFINED_OPERATOR"
  | undefinedVariable => "UNDEFINED_VARIABLE"
  | undefinedState => "UNDEFINED_STATE"
  | constantAssignment => "CONSTANT_ASSIGNMENT"
  | typeError => "TYPE_ERROR"
  | unreachableCode => "UNREACHABLE_CODE"
  | unreachableState => "UNREACHABLE_STATE"
  | unlisted _ => "UNKNOWN"

/-- Unreachable code and states are tolerated, all else stops a compilation. -/
def severity : ReportKind → Severity
  | unreachableCode | unreachableState => .warning
  | _ => .error

def summary : ReportKind → String
  | invalidToken => "invalid character"
  | unexpectedToken => "unexpected token"
  | unexpectedEndOfInput => "unexpected end of input"
  | endOfInputExpected => "expected end of input"
  | valueExpressionExpected => "expected a value expression"
  | conditionExpected => "expected a condition"
  | ambiguousDefinition => "ambiguous definition"
  | missingStateDefinition => "missing state definition"
  | tooLittleStates => "a state machine needs at least two states"
  | duplicateIdentifier => "duplicate identifier"
  | undefinedOperator => "undefined operator"
  | undefinedVariable => "undefined variable"
  | undefinedState => "undefined state"
  | constantAssignment => "cannot assign to a constant"
  | typeError => "type mismatch"
  | unreachableCode => "unreachable code"
  | unreachableState => "unreachable state"
  | unlisted _ => "unknown problem"

end ReportKind

structure Report where
  kind : ReportKind
  selection : Selection
  /-- What a parser would have accepted instead. -/
  expected : List TokenKind := []
  /-- What it found. -/
  unexpected : Option TokenKind := none
  /-- Detail that depends on the kind, such as a name. -/
  info : String := ""
deriving DecidableEq, Repr, Inhabited

namespace Report

def severity (r : Report) : Severity := r.kind.severity

def location (r : Report) : Location := r.selection.start

def isError (r : Report) : Bool := r.severity == .error

def isWarning (r : Report) : Bool := r.severity == .warning

def invalidToken (selection : Selection) (text : String) : Report :=
  { kind := .invalidToken, selection, info := text }

def alternatives : List String → String
  | [] => ""
  | [a] => a
  | [a, b] => a ++ " or " ++ b
  | a :: rest => a ++ ", " ++ alternatives rest

/-- What would have been accepted, each kind once. -/
def expectation (kinds : List TokenKind) : String :=
  if kinds.isEmpty then ""
  else ", expected " ++ alternatives (kinds.eraseDups.map TokenKind.description)

def message (r : Report) : String :=
  let subject :=
    match r.kind with
    | .unexpectedToken =>
        "unexpected " ++ (r.unexpected.map TokenKind.description).getD "token"
    | .invalidToken =>
        r.kind.summary ++ (if r.info = "" then "" else " '" ++ r.info ++ "'")
    | .endOfInputExpected =>
        r.kind.summary ++
          (match r.unexpected with
          | some kind => ", got " ++ kind.description
          | none => "")
    | _ => r.kind.summary ++ (if r.info = "" then "" else ": " ++ r.info)
  subject ++ expectation r.expected

def text (r : Report) : String :=
  r.severity.name ++ " " ++ r.selection.text ++ " " ++ r.kind.name ++ ": " ++ r.message

/-- Which of two reports explains a failure better. -/
inductive Choice where
  | first | second | merged
deriving DecidableEq, Repr

/-- The graver report is preferred. Reports on the same range are merged, of
those with the same start the one that ends earlier is preferred, and otherwise
the one that starts later. -/
def prefer (a b : Report) : Choice :=
  if a.severity ≠ b.severity then
    if b.severity.code < a.severity.code then .first else .second
  else if a.selection = b.selection then .merged
  else if a.location = b.location then
    if a.selection.stop < b.selection.stop then .first else .second
  else if b.location < a.location then .first else .second

def merge (a b : Report) : Report where
  kind := a.kind
  selection := a.selection
  expected := a.expected ++ b.expected
  unexpected := a.unexpected.or b.unexpected

/-- The better explanation of a failure at a choice between two parsers. -/
def mostRelevant (a b : Report) : Report :=
  match prefer a b with
  | .first => a
  | .second => b
  | .merged => merge a b

end Report
end Statecraft
