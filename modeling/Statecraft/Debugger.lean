import Statecraft.Machine.Drive
import Statecraft.Report.Listing
import Statecraft.Text.Glyph
import Statecraft.Text.Integer

/-! The debugger: commands that step a machine and show where it is. -/
namespace Statecraft.Debugger

open Text (Glyph)

inductive Command where
  | step (count : Nat)
  | next
  /-- A limit of zero is no limit. -/
  | run (limit : Nat)
  | vars | state | whereAmI | list | reset | help | quit
  | invalidCount (text : List Glyph)
  | unknown (word : List Glyph)
deriving DecidableEq, Repr

namespace Command

def names : List String :=
  ["step", "next", "run", "vars", "state", "where", "list", "reset", "help", "quit"]

def completions (typed : String) : List String :=
  names.filter fun name => typed.toList.isPrefixOf name.toList

/-- A command with a count, which has a default. -/
def counted (command : Nat → Command) (default : Nat) : List (List Glyph) → Command
  | [] => command default
  | text :: _ =>
      match (Glyph.text? text).bind Text.decimal? with
      | some (.ofNat n) => command n
      | _ => .invalidCount text

/-- Reads a command. A blank line holds none. -/
def parse? (line : List Glyph) : Option Command :=
  match Text.words Glyph.isSpace line with
  | [] => none
  | word :: arguments =>
      some <| match Glyph.text? word with
        | some "step" | some "s" => counted .step 1 arguments
        | some "next" | some "n" => .next
        | some "run" | some "r" => counted .run 0 arguments
        | some "vars" | some "v" => .vars
        | some "state" => .state
        | some "where" | some "w" => .whereAmI
        | some "list" | some "l" => .list
        | some "reset" => .reset
        | some "help" | some "h" | some "?" => .help
        | some "quit" | some "q" | some "exit" => .quit
        | _ => .unknown word

end Command

def helpText : String :=
  "commands:\n" ++
  "  step [n]    execute n instructions (default 1)\n" ++
  "  next        execute one statement\n" ++
  "  run [n]     run until exit, at most n instructions\n" ++
  "  vars        print constants and variables\n" ++
  "  state       print the current state\n" ++
  "  where       print the current statement\n" ++
  "  list        print the instructions around the next one\n" ++
  "  reset       restart the program\n" ++
  "  help        print this text\n" ++
  "  quit        leave the debugger\n"

/-- The current state and the statement at hand with its first source line. -/
def place (source : String) (m : Machine) : String :=
  let here := m.location.start
  if !here.isValid then "[" ++ m.state ++ "] at start of program\n"
  else
    let line := ((Report.lines source)[here.line.toNat - 1]?).getD ""
    "[" ++ m.state ++ "] " ++ m.location.text ++ "  " ++ Text.trimmed line ++ "\n"

def status (source : String) (m : Machine) : String :=
  match m.fault, m.exit with
  | some fault, _ => "runtime error: " ++ fault.message ++ "\n"
  | none, some reason =>
      "exited: " ++ reason.name ++ " in state " ++ m.state ++ " after " ++ toString m.steps ++
        " steps\n"
  | none, none => place source m

/-- The instructions from three before the next one to four after it. -/
def surroundings (m : Machine) : String :=
  let first := m.ip - 3
  let shown := ((m.program.instructions.zipIdx).drop first).take (m.ip + 5 - first)
  let line (entry : Instruction × Nat) : String :=
    let mark := if entry.2 = m.ip then "=>" else "  "
    let index := if entry.1.label?.isSome then "      " else " " ++ indexText entry.2 ++ "  "
    mark ++ index ++ entry.1.text ++ "\n"
  String.join (shown.map line)

/-- A machine after a command, what the command printed, and whether it ends the
session. -/
structure Answer (σ : Type) where
  driven : Driven σ
  printed : String
  ends : Bool := false

/-- Carries out a command on a program with the given source. There is no answer
if the machine needs more steps than `fuel`. -/
def execute {σ : Type} (source : String) (monitor : Monitor σ) (fuel : Nat) (d : Driven σ) :
    Command → Option (Answer σ)
  | .step count =>
      let after := ((d.steps monitor count).map (·.driven)).getD d
      some ⟨after, status source after.machine, false⟩
  | .next =>
      (d.statement monitor fuel).map fun r =>
        ⟨r.driven, status source r.driven.machine, false⟩
  | .run limit =>
      let bounds := Driven.Bounds.steps (if limit = 0 then none else some limit)
      (d.run monitor bounds fuel).map fun r =>
        let reached :=
          match r.halt with
          | some .stepLimit => "step limit of " ++ toString limit ++ " reached\n"
          | _ => ""
        ⟨r.driven, reached ++ status source r.driven.machine, false⟩
  | .vars => some ⟨d, d.machine.summary, false⟩
  | .state => some ⟨d, d.machine.state ++ "\n", false⟩
  | .whereAmI => some ⟨d, place source d.machine, false⟩
  | .list => some ⟨d, surroundings d.machine, false⟩
  | .reset => some ⟨d.reset, "program restarted\n", false⟩
  | .help => some ⟨d, helpText, false⟩
  | .quit => some ⟨d, "", true⟩
  | .invalidCount text => some ⟨d, "invalid count " ++ Glyph.quoted text ++ "\n", false⟩
  | .unknown word =>
      some ⟨d, "unknown command " ++ Glyph.quoted word ++ ", type help for commands\n", false⟩

end Statecraft.Debugger
