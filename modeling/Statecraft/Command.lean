import Statecraft.Command.Flag
import Statecraft.Command.Folder
import Statecraft.Command.Log
import Statecraft.Command.Typed
import Statecraft.Debugger
import Statecraft.Graph.Dot
import Statecraft.Trace

/-! The commands: checking, running, debugging and dumping a program. Arguments
become a request, the source named in it is compiled, and the command does its
work on the program. Everything written is returned as text. -/
namespace Statecraft.Command

open Text (Glyph)

structure Output where
  code : Nat
  stdout : String := ""
  stderr : String := ""

inductive Verb where
  | check | run | debug | dump
deriving DecidableEq, Repr

namespace Verb

def name : Verb → String
  | check => "check"
  | run => "run"
  | debug => "debug"
  | dump => "dump"

def ofName? (name : String) : Option Verb :=
  [check, run, debug, dump].find? (·.name = name)

/-- The flags of the command, by name. The path of the history is shown as the
value it has without the flag. -/
def flags (verb : Verb) (history : String) : List Flag :=
  let optimize : Flag :=
    { name := "O"
      setter := .switch fun b o => { o with optimize := b }
      usage := "optimize the compiled program" }
  let verbose : Flag :=
    { name := "v"
      setter := .switch fun b o => { o with verbose := b }
      usage := "log compilation and execution details" }
  let own : List Flag :=
    match verb with
    | check => []
    | run =>
        [{ name := "max-steps"
           setter := .integer "N" fun n o => { o with maxSteps := n }
           usage := "stop after N instructions (0 = unlimited)" },
         { name := "timeout"
           setter := .duration "duration" fun d o => { o with timeout := d }
           usage := "stop after duration (0 = no deadline)" },
         { name := "trace"
           setter := .text "path" fun path o => { o with trace := path }
           usage := "record every step into the SQLite database at path" }]
    | debug =>
        [{ name := "history"
           setter := .text "path" fun path o => { o with history := path }
           usage := "history file path"
           default := history }]
    | dump =>
        [{ name := "dot"
           setter := .switch fun b o => { o with dot := b }
           usage := "print the state graph in Graphviz DOT format instead" },
         { name := "no-locations"
           setter := .switch fun b o => { o with hideLocations := b }
           usage := "hide source location markers" }]
  optimize :: own ++ [verbose]

end Verb

def usage : String :=
  "usage: statelang <command> [flags] <file>\n\n" ++
  "commands:\n" ++
  "  check   compile and report problems\n" ++
  "  run     compile and run to completion\n" ++
  "  debug   step through a program interactively\n" ++
  "  dump    print the compiled instructions\n\n" ++
  "Run \"statelang <command> -h\" for the flags of a command.\n"

/-- A command on the source in a file. -/
structure Request where
  verb : Verb
  options : Options
  path : String

def Verb.request (verb : Verb) (history : String) (arguments : List String) :
    Except Output Request :=
  let flags := verb.flags history
  match Flag.readAll flags arguments { history := history } with
  | .error refusal =>
      .error
        { code := 2
          stderr := refusal.message ++ "Usage of " ++ verb.name ++ ":\n" ++
            String.join (flags.map Flag.usageText) }
  | .ok (options, [path]) => .ok ⟨verb, options, path⟩
  | .ok _ =>
      .error { code := 2, stderr := "statelang " ++ verb.name ++ ": expected exactly one file\n" }

def request (history : String) : List String → Except Output Request
  | [] => .error { code := 2, stderr := usage }
  | word :: arguments =>
      match Verb.ofName? word with
      | some verb => verb.request history arguments
      | none =>
          if word ∈ ["-h", "--help", "help"] then .error { code := 0, stdout := usage }
          else
            .error
              { code := 2
                stderr := "statelang: unknown command " ++ Text.quoted word ++ "\n\n" ++ usage }

structure Prepared where
  request : Request
  source : String
  reports : List Report
  stats : Option Optimize.Stats
  program : Program
  stderr : String

def Request.prepare (r : Request) (contents : Except String String) : Except Output Prepared :=
  match contents with
  | .error reason => .error { code := 1, stderr := "Error reading file: " ++ reason ++ "\n" }
  | .ok source =>
      let traced := Compilation.traced source r.options.optimize
      let log := String.join
        (traced.milestones.map fun m => Log.shown r.options.verbose (Log.ofMilestone r.path m))
      match traced.result with
      | .error e =>
          .error
            { code := 1
              stderr := log ++ "Internal compiler error: " ++ e.message r.path ++ "\n" }
      | .ok compilation =>
          let stderr := log ++ Report.listing r.path source compilation.reports
          match compilation.program with
          | none => .error { code := 1, stderr := stderr }
          | some program =>
              .ok ⟨r, source, compilation.reports, compilation.stats, program, stderr⟩

namespace Prepared

def stateCount (p : Prepared) : Nat := (p.program.graph.map fun g => g.states.length).getD 0

def check (p : Prepared) : Output :=
  { code := 0
    stdout := "✓ " ++ p.request.path ++ ": " ++ toString p.stateCount ++ " states, " ++
      toString p.program.size ++ " instructions, " ++ toString p.reports.length ++ " warnings\n"
    stderr := p.stderr }

def dump (p : Prepared) : Output :=
  { code := 0
    stdout :=
      if p.request.options.dot then (p.program.graph.map (·.dot "statelang")).getD ""
      else p.program.listing !p.request.options.hideLocations
    stderr := p.stderr ++ (p.stats.map Optimize.Stats.text).getD "" }

structure Record where
  /-- Log lines, the last one first. -/
  log : List String
  trace : Trace.Store

def Record.logged (r : Record) : String := String.join r.log.reverse

/-- The id of the session in a store of its own. -/
def sessionId : String := "run"

def isTraced (p : Prepared) : Bool := !p.request.options.trace.isEmpty

def monitor (p : Prepared) : Monitor Record :=
  { log := fun notice r =>
      { r with log := Log.shown p.request.options.verbose (Log.ofNotice notice) :: r.log }
    observers :=
      if p.isTraced then
        [fun e r =>
          let (trace, failure) := Trace.Store.observer sessionId e r.trace
          ({ r with trace := trace }, failure)]
      else [] }

def start (p : Prepared) : Driven Record :=
  { machine := Machine.start p.program
    memory :=
      if p.isTraced then
        { log := [Log.Line.text ⟨.info, "tracing run", [("database", p.request.options.trace)]⟩]
          trace := Trace.Store.empty.start sessionId p.request.path }
      else { log := [], trace := .empty } }

/-- The bounds that the flags set; `expired` says after how many steps the deadline
has passed. -/
def bounds (p : Prepared) (expired : Nat → Bool) : Driven.Bounds :=
  { limit := if 0 < p.request.options.maxSteps then some p.request.options.maxSteps.toNat else none
    interrupted := fun executed =>
      if 0 < p.request.options.timeout ∧ expired executed then some .deadlineExceeded else none }

/-- How a run ends for the caller: what is said about it and the code. -/
def verdict (p : Prepared) (m : Machine) : Option Halt → String × Nat
  | some .stepLimit =>
      ("Stopped: step limit of " ++ toString p.request.options.maxSteps ++ " reached\n", 1)
  | some .canceled => ("Stopped: " ++ Halt.canceled.message ++ "\n", 1)
  | some .deadlineExceeded => ("Stopped: " ++ Halt.deadlineExceeded.message ++ "\n", 1)
  | some halt => ("Runtime error: " ++ halt.message ++ "\n", 1)
  | none => ("", if m.reason = .assertionFailed ∨ m.reason = .failure then 1 else 0)

def finish (p : Prepared) (r : Driven.Result Record) : Output × Trace.Store :=
  let m := r.driven.machine
  let (said, code) := p.verdict m r.halt
  let finished := Log.shown p.request.options.verbose
    ⟨.debug, "run finished", [("steps", toString m.steps)]⟩
  ({ code := code
     stdout := m.summary
     stderr := p.stderr ++ r.driven.memory.logged ++ finished ++ said },
   r.driven.memory.trace.finish sessionId m r.halt)

/-- Runs the program. There is no answer if it needs more steps than `fuel`. -/
def run (p : Prepared) (expired : Nat → Bool) (fuel : Nat) : Option (Output × Trace.Store) :=
  (p.start.run p.monitor (p.bounds expired) fuel).map p.finish

end Prepared

structure Shell where
  prepared : Prepared
  driven : Driven (List String)
  history : History
  /-- What was printed, the last text first. -/
  printed : List String

namespace Shell

/-- The session before its first command; the history is read from its text. -/
def start (p : Prepared) (history : Option String) : Shell :=
  { prepared := p
    driven := ⟨Machine.start p.program, []⟩
    history := (history.map History.read).getD .empty
    printed :=
      ["statelang debugger: " ++ p.request.path ++ " (" ++ toString p.program.size ++
        " instructions)\nType help for commands.\n"] }

/-- Keeps log lines, the last one first. -/
def monitor (s : Shell) : Monitor (List String) :=
  ⟨fun notice log =>
    Log.shown s.prepared.request.options.verbose (Log.ofNotice notice) :: log, []⟩

/-- Takes one line, and tells whether it ends the session. A blank line does
nothing. There is no answer if the machine needs more steps than `fuel`. -/
def enter (fuel : Nat) (s : Shell) (line : List Glyph) : Option (Shell × Bool) :=
  match Debugger.Command.parse? line with
  | none => some (s, false)
  | some command =>
      (Debugger.execute s.prepared.source s.monitor fuel s.driven command).map fun answer =>
        ({ s with
            driven := answer.driven
            history := s.history.append (Text.trim Glyph.isSpace line)
            printed := answer.printed :: s.printed },
          answer.ends)

/-- Takes lines until one ends the session. The end of the input prints a newline. -/
def enterAll (fuel : Nat) (s : Shell) : List (List Glyph) → Option Shell
  | [] => some { s with printed := "\n" :: s.printed }
  | line :: rest =>
      match s.enter fuel line with
      | none => none
      | some (s, true) => some s
      | some (s, false) => enterAll fuel s rest

def output (s : Shell) : Output :=
  { code := 0
    stdout := String.join s.printed.reverse
    stderr := s.prepared.stderr ++ String.join s.driven.memory.reverse }

end Shell

structure Surroundings where
  folder : Folder
  /-- The path of the history unless a flag gives another. -/
  history : String
  /-- The lines typed into the debugger. -/
  lines : List (List Glyph)
  /-- A deadline of so many nanoseconds has passed after so many steps. -/
  expired : (nanoseconds steps : Nat) → Bool

/-- What a command did: what it wrote, the files after it, and the recorded steps
with the path of their database. -/
structure Effects where
  output : Output
  folder : Folder
  trace : Option (String × Trace.Store) := none

/-- The sessions in the database at a path, which is empty if it is not the one
that was written. -/
def Effects.sessions (e : Effects) (path : String) : List Trace.Session :=
  match e.trace with
  | some (written, store) => if e.folder.same written path then store.sessions else []
  | none => []

/-- Carries out a command. There is no answer if a machine needs more steps than
`fuel`. -/
def perform (around : Surroundings) (fuel : Nat) (arguments : List String) : Option Effects :=
  let folder := around.folder
  match request around.history arguments with
  | .error output => some { output, folder }
  | .ok r =>
      match r.prepare (folder.read r.path) with
      | .error output => some { output, folder }
      | .ok p =>
          match r.verb with
          | .check => some { output := p.check, folder }
          | .dump => some { output := p.dump, folder }
          | .run =>
              (p.run (around.expired r.options.timeout.toNat) fuel).map fun (output, trace) =>
                { output
                  folder
                  trace := if p.isTraced then some (r.options.trace, trace) else none }
          | .debug =>
              let kept := (folder.read r.options.history).toOption
              ((Shell.start p kept).enterAll fuel around.lines).map fun s =>
                { output := s.output, folder := folder.write r.options.history s.history.text }

end Statecraft.Command
