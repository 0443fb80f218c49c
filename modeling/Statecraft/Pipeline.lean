import Statecraft.Compile.Program
import Statecraft.Grammar.Program
import Statecraft.Optimize.Rounds

/-! From a source text to a program: reading, compiling, checking the code and
optimising it. Problems of the source are reported; an error means that the code
made from it is inconsistent. -/
namespace Statecraft

inductive Milestone where
  | parsed (definitions reports : Nat)
  | failed (reports : Nat)
  | compiled (instructions states reports : Nat)
  | passed (run : Optimize.PassRun)
  | optimized (instructions : Nat) (removed : Int)

inductive CompilationError where
  | assembly (error : AssemblyError)
  | stack (error : StackError)
  | optimization (error : Optimize.Error)

def CompilationError.message (descriptor : String) : CompilationError → String
  | assembly e => "compile " ++ descriptor ++ ": generated code does not assemble: " ++ e.message
  | stack e => "compile " ++ descriptor ++ ": invalid code: " ++ e.message
  | optimization e => "optimize " ++ descriptor ++ ": " ++ e.message

def CompilationError.assembly? : CompilationError → Option AssemblyError
  | assembly error => some error
  | stack _ => none
  | optimization error => error.assembly?

/-- The outcome of a compilation. There is a program unless a report is an error. -/
structure Compilation where
  source : String
  reports : List Report
  program : Option Program
  stats : Option Optimize.Stats

/-- A compilation and the passes that were run for it. -/
structure Compilation.Traced where
  milestones : List Milestone
  runs : List Optimize.PassRun
  result : Except CompilationError Compilation

namespace Compilation

def hasErrors (c : Compilation) : Bool := c.reports.any Report.isError

def improve (source : String) (reports : List Report) (program : Program) (wanted : Bool)
    (milestones : List Milestone) : Traced :=
  if !wanted then ⟨milestones, [], .ok ⟨source, reports, some program, none⟩⟩
  else
    let (runs, result) :=
      Optimize.optimize Optimize.Pass.standard Optimize.standardLimit program
    let milestones := milestones ++ runs.map .passed
    match result with
    | .error e => ⟨milestones, runs, .error (.optimization e)⟩
    | .ok better =>
        ⟨milestones ++
            [.optimized better.program.size better.stats.instructionsRemoved],
          runs, .ok ⟨source, reports, some better.program, some better.stats⟩⟩

def check (source : String) (compiled : Compile.Compiled) (optimize : Bool)
    (milestones : List Milestone) : Traced :=
  let count := compiled.reports.length
  match compiled.program with
  | none => ⟨milestones ++ [.failed count], [], .ok ⟨source, compiled.reports, none, none⟩⟩
  | some program =>
      match program.stackErrors with
      | e :: _ => ⟨milestones, [], .error (.stack e)⟩
      | [] =>
          let states := (program.graph.map fun g => g.states.length).getD 0
          improve source compiled.reports program optimize
            (milestones ++ [.compiled program.size states count])

def traced (source : String) (optimize : Bool) : Traced :=
  let reading := Source.parse source
  let milestones := [Milestone.parsed reading.value.length reading.reports.length]
  match Compile.program reading.value reading.reports with
  | .error e => ⟨milestones, [], .error (.assembly e)⟩
  | .ok compiled => check source compiled optimize milestones

end Compilation

def compile (source : String) (optimize : Bool) : Except CompilationError Compilation :=
  (Compilation.traced source optimize).result

end Statecraft
