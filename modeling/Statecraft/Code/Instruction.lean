import Statecraft.Operator
import Statecraft.Position

/-! The instructions of the stack machine. Labels and source locations are
instructions that do nothing; jumps name their labels. -/
namespace Statecraft

inductive ExitReason where
  | success | failure | finalStateReached | assertionFailed
  | unlisted (code : Int)
deriving DecidableEq, Repr, Inhabited

namespace ExitReason

def all : List ExitReason := [success, failure, finalStateReached, assertionFailed]

def ofCode : Int → ExitReason
  | 0 => success
  | 1 => failure
  | 2 => finalStateReached
  | 3 => assertionFailed
  | code => unlisted code

def name : ExitReason → String
  | success => "success"
  | failure => "failure"
  | finalStateReached => "final_state_reached"
  | assertionFailed => "assertion_failed"
  | unlisted code => "ExitReason(" ++ toString code ++ ")"

end ExitReason

inductive Instruction where
  /-- Pushes a value. -/
  | push (value : Value)
  /-- Pushes the value stored under a name. -/
  | load (name : String)
  /-- Pops a value and stores it under a name. -/
  | store (name : String)
  /-- Replaces the operand on top by the result. -/
  | unary (op : UnaryOp) (operand : Ty)
  /-- Replaces two operands by the result; the right one is on top. -/
  | binary (op : BinaryOp) (left right : Ty)
  /-- Goes on at a label. -/
  | jump (label : String)
  /-- Pops a truth value and goes on at a label if it is false. -/
  | jumpIfNot (label : String)
  /-- A place to jump to. -/
  | label (name : String)
  /-- The start of the code of a statement. -/
  | location (span : Selection)
  /-- Moves to a state. -/
  | transition (state : String)
  /-- Stops. -/
  | exit (reason : ExitReason)
deriving Inhabited

namespace Instruction

def text : Instruction → String
  | push value => "push " ++ value.text
  | load name => "load " ++ name
  | store name => "store " ++ name
  | unary op operand => "unary " ++ op.symbol ++ " " ++ operand.name
  | binary op left right => "binary " ++ op.describe left right
  | jump target => "jump " ++ target
  | jumpIfNot target => "jump_if_not " ++ target
  | label name => name ++ ":"
  | location span => "; " ++ span.text
  | transition state => "transition " ++ state
  | exit reason => "exit " ++ reason.name

def pops : Instruction → Nat
  | store _ | unary .. | jumpIfNot _ => 1
  | binary .. => 2
  | _ => 0

def pushes : Instruction → Nat
  | push _ | load _ | unary .. | binary .. => 1
  | _ => 0

/-- Execution never goes on with the next instruction. -/
def isTerminator : Instruction → Bool
  | jump _ | exit _ => true
  | _ => false

def jumpTarget? : Instruction → Option String
  | jump target | jumpIfNot target => some target
  | _ => none

def label? : Instruction → Option String
  | label name => some name
  | _ => none

def defines (target : String) : Instruction → Bool
  | label name => name == target
  | _ => false

/-- It starts the code of a statement. -/
def isLocation : Instruction → Bool
  | location _ => true
  | _ => false

end Instruction

/-- An index of an instruction, with at least four digits. -/
def indexText (i : Nat) : String :=
  let digits := Nat.toDigits 10 i
  String.ofList (List.replicate (4 - digits.length) '0' ++ digits)

end Statecraft
