import Statecraft.Command

/-! The program: reads the files that a command needs, carries it out and writes
what it wrote. Only this module touches files, the clock and the terminal. -/
namespace Statecraft.Terminal

open Command

def readText (path : String) : IO (Except String String) := do
  try
    return .ok (← IO.FS.readFile path)
  catch
    | .noFileOrDirectory .. => return .error ("open " ++ path ++ ": no such file or directory")
    | e => return .error ("open " ++ path ++ ": " ++ toString e)

def writeBytes (path : String) (bytes : List UInt8) : IO Unit := do
  try IO.FS.writeBinFile path ⟨bytes.toArray⟩ catch _ => return ()

def write (o : Output) : IO UInt32 := do
  (← IO.getStdout).putStr o.stdout
  (← IO.getStderr).putStr o.stderr
  return o.code.toUInt32

/-- How many steps are run between two looks at the clock. -/
def slice : Nat := 4096

/-- How many steps a command of the debugger may take. -/
def patience : Nat := 1000000000000

/-- Runs slice by slice after `done` steps, until the program stops or its time or
its steps are used up. -/
partial def runSlices (p : Prepared) (deadline limit : Option Nat) (done : Nat)
    (d : Driven Prepared.Record) : IO (Driven.Result Prepared.Record) := do
  let now ← IO.monoNanosNow
  if deadline.any (· ≤ now) then return ⟨d, some .deadlineExceeded⟩
  let size := (limit.map fun n => min slice (n - done)).getD slice
  match d.run p.monitor (.steps (some size)) (size + 1) with
  | some ⟨d, some .stepLimit⟩ =>
      if limit = some (done + size) then return ⟨d, some .stepLimit⟩
      else runSlices p deadline limit (done + size) d
  | some r => return r
  | none => return ⟨d, some .stepLimit⟩

def run (p : Prepared) : IO UInt32 := do
  let now ← IO.monoNanosNow
  let timeout := p.request.options.timeout
  let deadline := if 0 < timeout then some (now + timeout.toNat) else none
  let r ← runSlices p deadline (p.bounds fun _ => false).limit 0 p.start
  let (output, trace) := p.finish r
  if p.isTraced then
    writeBytes p.request.options.trace trace.text.toUTF8.data.toList
  write output

/-- Prompts for commands until the session ends. The pieces of a line that were not
taken up yet come before the next line. -/
partial def converse (s : Shell) (pending : List (List Text.Glyph)) : IO Shell := do
  let out ← IO.getStdout
  out.putStr (String.join s.printed.reverse)
  (← IO.getStderr).putStr (String.join s.driven.memory.reverse)
  let s := { s with printed := [], driven := { s.driven with memory := [] } }
  out.putStr "(sl) "
  out.flush
  let pending ←
    if pending.isEmpty then pure (Typed.lines (← (← IO.getStdin).getLine)) else pure pending
  match pending with
  | [] =>
      out.putStrLn ""
      return s
  | piece :: rest =>
      match s.enter patience piece with
      | some (s, false) => converse s rest
      | some (s, true) => return s
      | none => return s

def debug (p : Prepared) : IO UInt32 := do
  let path := p.request.options.history
  (← IO.getStderr).putStr p.stderr
  let s ← converse (Shell.start p (← readText path).toOption) []
  writeBytes path s.history.bytes
  return 0

def historyPath : IO String := do
  match ← IO.getEnv "HOME" with
  | some home => return home ++ "/.statelang_history"
  | none => return ".statelang_history"

def perform (arguments : List String) : IO UInt32 := do
  match request (← historyPath) arguments with
  | .error output => write output
  | .ok r =>
      match r.prepare (← readText r.path) with
      | .error output => write output
      | .ok p =>
          match r.verb with
          | .check => write p.check
          | .dump => write p.dump
          | .run => run p
          | .debug => debug p

end Statecraft.Terminal

def main (arguments : List String) : IO UInt32 := Statecraft.Terminal.perform arguments
