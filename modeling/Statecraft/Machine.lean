import Statecraft.Code.Program

/-! The machine that runs assembled programs one instruction at a time. It has an
operand stack, a store of named values, the source location of the statement at
hand and a walker on the state graph. It stops with an exit reason or with a
fault, and then stays as it is. -/
namespace Statecraft

/-- The values of names, in the order in which the names were first stored. -/
structure Store where
  entries : List (String × Value)

namespace Store

def empty : Store := ⟨[]⟩

def find? (s : Store) (name : String) : Option Value := s.entries.lookup name

/-- Replaces the value of a name in place, or appends a new name. -/
def put (name : String) (value : Value) : List (String × Value) → List (String × Value)
  | [] => [(name, value)]
  | entry :: rest => if entry.1 = name then (name, value) :: rest else entry :: put name value rest

def insert (s : Store) (name : String) (value : Value) : Store := ⟨put name value s.entries⟩

def sorted (s : Store) : List (String × Value) :=
  s.entries.mergeSort fun a b => !decide (b.1 < a.1)

end Store

inductive Fault.Cause where
  | unknownLabel (label : String)
  /-- There is no state graph to move on. -/
  | noGraph
  | refusedMove (error : GraphError)
  | stackUnderflow
  | undefinedName (name : String)
  | operandType (found wanted : Ty)
  | undefinedUnary (op : UnaryOp) (operand : Ty)
  | undefinedBinary (op : BinaryOp) (left right : Ty)

def Fault.Cause.message : Fault.Cause → String
  | unknownLabel label => "unknown label: " ++ label
  | noGraph => "invalid transition: no state machine"
  | refusedMove error => "invalid transition: " ++ error.message
  | stackUnderflow => "stack underflow"
  | undefinedName name => "undefined name: " ++ name
  | operandType found wanted =>
      "operand type mismatch: got " ++ found.name ++ ", want " ++ wanted.name
  | undefinedUnary op operand => "operand type mismatch: " ++ op.describe operand
  | undefinedBinary op left right => "operand type mismatch: " ++ op.describe left right

structure Fault where
  index : Nat
  instruction : Instruction
  cause : Fault.Cause

def Fault.message (f : Fault) : String :=
  indexText f.index ++ " " ++ f.instruction.text ++ ": " ++ f.cause.message

/-- A program with everything that changes while it runs. -/
structure Machine where
  program : Program
  /-- The index of the next instruction. -/
  ip : Nat
  /-- The operands, top first. -/
  stack : List Value
  store : Store
  /-- The statement being executed; absent before the first one. -/
  location : Selection
  /-- How many instructions were executed. -/
  steps : Nat
  walker : Option Graph.Walker
  exit : Option ExitReason
  fault : Option Fault

/-- What observers learn about a step. The instruction is missing when the
machine ran past the last one. -/
structure StepEvent where
  step : Nat
  index : Nat
  instruction : Option Instruction
  state : String
  location : Selection
  exit : Option ExitReason

namespace Machine

def start (program : Program) : Machine :=
  { program := program
    ip := 0
    stack := []
    store := .empty
    location := .absent
    steps := 0
    walker := program.graph.map Graph.Walker.start
    exit := none
    fault := none }

def reset (m : Machine) : Machine := start m.program

/-- The name of the current state, empty without a state graph. -/
def state (m : Machine) : String := (m.walker.map fun w => w.current.name).getD ""

/-- The exit reason; a machine that runs shows success. -/
def reason (m : Machine) : ExitReason := m.exit.getD .success

def stopped (m : Machine) : Bool := m.exit.isSome || m.fault.isSome

def atStatement (m : Machine) : Bool :=
  (m.program.code[m.ip]?.map Instruction.isLocation).getD false

/-- Takes the operand on top, which has to have the given type. An operand of another type is
gone as well. -/
def popTyped (wanted : Ty) : List Value → Except (Fault.Cause × List Value) (Value × List Value)
  | [] => .error (.stackUnderflow, [])
  | v :: rest =>
      if v.type = wanted then .ok (v, rest) else .error (.operandType v.type wanted, rest)

def next (m : Machine) : Machine := { m with ip := m.ip + 1 }

def jumpTo (m : Machine) (label : String) : Except (Fault.Cause × Machine) Machine :=
  match m.program.resolve? label with
  | none => .error (.unknownLabel label, m)
  | some index => .ok { m with ip := index }

def moveTo (m : Machine) (state : String) : Except (Fault.Cause × Machine) Machine :=
  match m.walker with
  | none => .error (.noGraph, m)
  | some w =>
      match w.moveTo state with
      | .error e => .error (.refusedMove e, m)
      | .ok w => .ok { m.next with walker := some w }

def applyUnary (m : Machine) (op : UnaryOp) (operand : Ty) :
    Except (Fault.Cause × Machine) Machine :=
  match popTyped operand m.stack with
  | .error (cause, rest) => .error (cause, { m with stack := rest })
  | .ok (v, rest) =>
      match op.meaning? v.type with
      | none => .error (.undefinedUnary op v.type, { m with stack := rest })
      | some meaning => .ok { m.next with stack := meaning.apply v :: rest }

/-- Applies an operator to the two operands on top, the right one being above the left one. -/
def applyBinary (m : Machine) (op : BinaryOp) (left right : Ty) :
    Except (Fault.Cause × Machine) Machine :=
  match popTyped right m.stack with
  | .error (cause, rest) => .error (cause, { m with stack := rest })
  | .ok (r, rest) =>
      match popTyped left rest with
      | .error (cause, rest) => .error (cause, { m with stack := rest })
      | .ok (l, rest) =>
          match op.meaning? l.type r.type with
          | none => .error (.undefinedBinary op l.type r.type, { m with stack := rest })
          | some meaning => .ok { m.next with stack := meaning.apply l r :: rest }

/-- Executes an instruction as the current one. If it fails, the machine is the one in which it
found no way to go on: what it had taken from the stack is not put back. -/
def execute (m : Machine) : Instruction → Except (Fault.Cause × Machine) Machine
  | .push value => .ok { m.next with stack := value :: m.stack }
  | .load name =>
      match m.store.find? name with
      | none => .error (.undefinedName name, m)
      | some value => .ok { m.next with stack := value :: m.stack }
  | .store name =>
      match m.stack with
      | [] => .error (.stackUnderflow, m)
      | value :: rest => .ok { m.next with stack := rest, store := m.store.insert name value }
  | .unary op operand => m.applyUnary op operand
  | .binary op left right => m.applyBinary op left right
  | .jump label => m.jumpTo label
  | .jumpIfNot label =>
      match popTyped .boolean m.stack with
      | .error (cause, rest) => .error (cause, { m with stack := rest })
      | .ok (condition, rest) =>
          let popped := { m with stack := rest }
          if condition.toBool then .ok popped.next else popped.jumpTo label
  | .label _ => .ok m.next
  | .location span => .ok { m.next with location := span }
  | .transition state => m.moveTo state
  | .exit reason => .ok { m with exit := some reason }

def event (m : Machine) (index : Nat) (instruction : Option Instruction) : StepEvent :=
  ⟨m.steps, index, instruction, m.state, m.location, m.exit⟩

/-- Executes one instruction. A machine that stopped does nothing; running past
the last instruction exits with success and counts no step; an instruction that
fails leaves the machine where it got, with the fault, and has no event. -/
def step (m : Machine) : Machine × Option StepEvent :=
  if m.stopped then (m, none)
  else
    match m.program.code[m.ip]? with
    | none =>
        let stopped := { m with exit := some .success }
        (stopped, some (stopped.event m.ip none))
    | some i =>
        match m.execute i with
        | .error (cause, halted) => ({ halted with fault := some ⟨m.ip, i, cause⟩ }, none)
        | .ok after =>
            let counted := { after with steps := m.steps + 1 }
            (counted, some (counted.event m.ip (some i)))

/-- The exit reason, the state, the number of steps and the values by name. -/
def summary (m : Machine) : String :=
  "exit: " ++ (m.exit.map ExitReason.name).getD "<running>" ++ "\n" ++
    "state: " ++ m.state ++ "\n" ++
    "steps: " ++ toString m.steps ++ "\n" ++
    String.join
      (m.store.sorted.map fun (name, value) => "  " ++ name ++ " = " ++ value.text ++ "\n")

end Machine
end Statecraft
