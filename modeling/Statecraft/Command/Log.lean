import Statecraft.Machine.Drive
import Statecraft.Pipeline
import Statecraft.Text.Blank
import Statecraft.Text.Quoted

/-! Log lines: a level, a message and named values, each written as `key=value`.
A value is quoted when it could not be told from its surroundings. -/
namespace Statecraft.Log

inductive Level where
  | debug | info | error
deriving DecidableEq, Repr

def Level.name : Level → String
  | debug => "DEBUG"
  | info => "INFO"
  | error => "ERROR"

structure Line where
  level : Level
  message : String
  values : List (String × String)

/-- The character makes a value ambiguous or cannot be shown. -/
def isAwkward (c : Char) : Bool :=
  if c.toNat < 0x80 then c.toNat ≤ 0x20 || c = '=' || c = '"'
  else c.toNat = 0xfffd || Text.isSpace c || !Text.isPrintable c

def valueText (value : String) : String :=
  if value.isEmpty || value.toList.any isAwkward then Text.quoted value else value

def Line.text (line : Line) : String :=
  let fields := ("level", line.level.name) :: ("msg", line.message) :: line.values
  " ".intercalate (fields.map fun (key, value) => key ++ "=" ++ valueText value) ++ "\n"

def ofMilestone (descriptor : String) (m : Milestone) : Line :=
  let (message, values) : String × List (String × String) :=
    match m with
    | .parsed definitions reports =>
        ("parsed", [("definitions", toString definitions), ("reports", toString reports)])
    | .failed reports => ("compilation failed", [("reports", toString reports)])
    | .compiled instructions states reports =>
        ("compiled",
          [("instructions", toString instructions), ("states", toString states),
            ("reports", toString reports)])
    | .passed run =>
        ("optimizer pass",
          [("pass", run.pass.name), ("round", toString run.round),
            ("changed", toString run.changed), ("instructions", toString run.size)])
    | .optimized instructions removed =>
        ("optimized", [("instructions", toString instructions), ("removed", toString removed)])
  ⟨.debug, message, ("descriptor", descriptor) :: values⟩

def ofNotice : Notice → Line
  | .moved source target => ⟨.debug, "transition", [("from", source), ("to", target)]⟩
  | .exited reason state steps =>
      ⟨.debug, "exit", [("reason", reason.name), ("state", state), ("steps", toString steps)]⟩
  | .halted fault =>
      ⟨.error, "vm halted", [("ip", toString fault.index), ("error", fault.message)]⟩

/-- The text of the line, unless it is a detail that nobody asked for. -/
def shown (verbose : Bool) (line : Line) : String :=
  if verbose || line.level ≠ .debug then line.text else ""

end Statecraft.Log
