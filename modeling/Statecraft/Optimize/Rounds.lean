import Statecraft.Optimize.DeadCode
import Statecraft.Optimize.Fold
import Statecraft.Code.Verify

/-! Optimising: passes are run over the code in rounds until a round changes
nothing or the rounds are used up. The result is assembled and checked again. -/
namespace Statecraft.Optimize

inductive Pass where
  | constantFolding | deadCodeElimination
deriving DecidableEq, Repr

def Pass.name : Pass → String
  | constantFolding => "ConstantFolding"
  | deadCodeElimination => "DeadCodeElimination"

def Pass.standard : List Pass := [.constantFolding, .deadCodeElimination]

structure Stats where
  instructionsRemoved : Int := 0
  blocksRemoved : Nat := 0
  constantsFolded : Nat := 0
  branchesFolded : Nat := 0

def Stats.text (s : Stats) : String :=
  "Optimization Stats:\n  Instructions removed: " ++ toString s.instructionsRemoved ++
    "\n  Blocks removed: " ++ toString s.blocksRemoved ++
    "\n  Constants folded: " ++ toString s.constantsFolded ++
    "\n  Branches folded: " ++ toString s.branchesFolded ++ "\n"

/-- The code after a pass, whether it changed, and the counts added up. -/
structure Passed where
  code : List Instruction
  changed : Bool
  stats : Stats

def Pass.run (pass : Pass) (code : List Instruction) (stats : Stats) : Passed :=
  match pass with
  | constantFolding =>
      let folded := Folding.sweep code
      ⟨folded.out.reverse, 0 < folded.constants || 0 < folded.branches,
        { stats with
          constantsFolded := stats.constantsFolded + folded.constants
          branchesFolded := stats.branchesFolded + folded.branches }⟩
  | deadCodeElimination =>
      let pruned := prune code
      ⟨pruned.code, pruned.changed,
        { stats with blocksRemoved := stats.blocksRemoved + pruned.blocks }⟩

structure PassRun where
  pass : Pass
  round : Nat
  changed : Bool
  /-- The number of instructions after it. -/
  size : Nat

structure Progress where
  code : List Instruction
  stats : Stats
  runs : List PassRun

/-- Runs the passes once each and tells whether one of them changed the code. -/
def round (number : Nat) : List Pass → Progress → Progress × Bool
  | [], p => (p, false)
  | pass :: rest, p =>
      let passed := pass.run p.code p.stats
      let run : PassRun := ⟨pass, number, passed.changed, passed.code.length⟩
      let (last, changed) := round number rest ⟨passed.code, passed.stats, p.runs ++ [run]⟩
      (last, passed.changed || changed)

/-- Runs at most `left` rounds, the first of which has the given number. -/
def rounds (passes : List Pass) : (left number : Nat) → Progress → Progress
  | 0, _, p => p
  | left + 1, number, p =>
      let (next, changed) := round number passes p
      if changed then rounds passes left (number + 1) next else next

inductive Error where
  | assembly (error : AssemblyError)
  | stack (error : StackError)

def Error.message : Error → String
  | assembly error => "optimized program does not assemble: " ++ error.message
  | stack error => "optimized program is invalid: " ++ error.message

def Error.assembly? : Error → Option AssemblyError
  | assembly error => some error
  | stack _ => none

structure Optimized where
  program : Program
  stats : Stats

/-- The rounds are bounded unless another limit is given. -/
def standardLimit : Nat := 10

/-- Runs the passes over a program. The runs are reported even if the result is
rejected. -/
def optimize (passes : List Pass) (limit : Nat) (p : Program) :
    List PassRun × Except Error Optimized :=
  let last := rounds passes limit 0 ⟨p.instructions, {}, []⟩
  let stats :=
    { last.stats with
      instructionsRemoved := (p.size : Int) - last.code.length }
  let result : Except Error Optimized :=
    match Program.assemble last.code p.symbols p.graph with
    | .error e => .error (.assembly e)
    | .ok optimized =>
        match optimized.stackErrors with
        | e :: _ => .error (.stack e)
        | [] => .ok ⟨optimized, stats⟩
  (last.runs, result)

end Statecraft.Optimize
