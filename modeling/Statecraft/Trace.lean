import Statecraft.Machine.Drive

/-! Recorded runs. A store lists sessions in the order in which they were started, and
keeps the rows of all of them together in the order in which they were recorded. A session
takes one row for each step until it is finished. -/
namespace Statecraft.Trace

structure Row where
  step : Nat
  index : Nat
  /-- Empty when the machine ran past the last instruction. -/
  instruction : String
  state : String
  location : String
  exited : Bool
  /-- Empty unless the step exited. -/
  reason : String
deriving DecidableEq, Repr

def Row.ofEvent (e : StepEvent) : Row :=
  { step := e.step
    index := e.index
    instruction := (e.instruction.map Instruction.text).getD ""
    state := e.state
    location := e.location.text
    exited := e.exit.isSome
    reason := (e.exit.map ExitReason.name).getD "" }

/-- The row as one line, with tabs between its parts. -/
def Row.text (r : Row) : String :=
  "\t".intercalate
    [toString r.step, toString r.index, r.instruction, r.state, r.location, toString r.exited,
      r.reason] ++ "\n"

/-- A run as it is listed. The outcome is filled in when it is finished. -/
structure Info where
  id : String
  descriptor : String
  ended : Bool := false
  steps : Nat := 0
  finalState : String := ""
  /-- The exit reason, empty if the run did not exit. -/
  reason : String := ""
  /-- What the run broke off with, empty if it did not. -/
  error : String := ""
deriving DecidableEq, Repr

def Info.finished (info : Info) (m : Machine) (halt : Option Halt) : Info :=
  { info with
    ended := true
    steps := m.steps
    finalState := m.state
    reason := (m.exit.map ExitReason.name).getD ""
    error := (halt.map Halt.message).getD "" }

structure Session extends Info where
  rows : List Row
deriving DecidableEq, Repr

def Session.text (s : Session) : String :=
  "\t".intercalate
    [s.id, s.descriptor, toString s.ended, toString s.steps, s.finalState, s.reason, s.error] ++
    "\n" ++ String.join (s.rows.map Row.text)

inductive Error where
  | sessionNotFound (id : String)
  /-- A step was to be recorded after the end of its session. -/
  | closed (step : Nat)
deriving DecidableEq, Repr

def Error.message : Error → String
  | sessionNotFound id => "session not found: " ++ id
  | closed step => "record step " ++ toString step ++ ": sql: statement is closed"

/-- An id as it is shown: in small letters, with dashes after 8, 12, 16 and 20
digits. It may also be given without dashes, in braces or as a name of the uuid
namespace. -/
def canonicalId (text : String) : String :=
  let small := text.toList.map Char.toLower
  let named := "urn:uuid:".toList
  let bare := if named.isPrefixOf small then small.drop named.length else small
  let digits := bare.filter fun c => !(c = '-' || c = '\x7b' || c = '\x7d')
  let group (first count : Nat) : String := String.ofList ((digits.drop first).take count)
  "-".intercalate [group 0 8, group 8 4, group 12 4, group 16 4, group 20 (digits.length - 20)]

structure Store where
  /-- In the order in which they were started. -/
  started : List Info
  /-- The recorded steps of all sessions, each with the id of its session, the last one
  first. -/
  latest : List (String × Row)
deriving DecidableEq, Repr

namespace Store

def empty : Store := ⟨[], []⟩

/-- Starts a session. The id is new. -/
def start (s : Store) (id descriptor : String) : Store :=
  { s with started := s.started ++ [{ id := id, descriptor := descriptor }] }

def find? (s : Store) (id : String) : Option Info := s.started.find? (·.id = id)

def modify (s : Store) (id : String) (change : Info → Info) : Store :=
  { s with started := s.started.map fun info => if info.id = id then change info else info }

/-- The recorded steps of a session, in order; none for an unknown session. -/
def steps (s : Store) (id : String) : List Row :=
  ((s.latest.filter (·.1 = id)).map (·.2)).reverse

def session (s : Store) (id : String) : Except Error Session :=
  match s.find? id with
  | some info => .ok ⟨info, s.steps id⟩
  | none => .error (.sessionNotFound id)

/-- The sessions, the most recent first. -/
def sessions (s : Store) : List Session :=
  s.started.reverse.map fun info => ⟨info, s.steps info.id⟩

/-- Appends a row for a session that is not finished. -/
def record (s : Store) (id : String) (e : StepEvent) : Except Error Store :=
  match s.find? id with
  | none => .error (.sessionNotFound id)
  | some info =>
      if info.ended then .error (.closed e.step)
      else .ok { s with latest := (id, Row.ofEvent e) :: s.latest }

def finish (s : Store) (id : String) (m : Machine) (halt : Option Halt) : Store :=
  s.modify id (·.finished m halt)

def text (s : Store) : String := String.join (s.sessions.map Session.text)

def observer (id : String) : Observer Store := fun e s =>
  match s.record id e with
  | .ok recorded => (recorded, none)
  | .error error => (s, some error.message)

/-- Records every step into a session and logs nothing. -/
def monitor (id : String) : Monitor Store := ⟨fun _ s => s, [observer id]⟩

end Store
end Statecraft.Trace
