import Statecraft.Code.Instruction
import Statecraft.Reach

/-! Basic blocks: runs of instructions that are entered at the front and left at
the end. A block starts at the first instruction, at every label and after every
jump or exit. -/
namespace Statecraft

/-- A block with the index of its first instruction; its successors are places in
the list of blocks. -/
structure BasicBlock where
  start : Nat
  body : List Instruction
  successors : List Nat

namespace BasicBlock

def stop (b : BasicBlock) : Nat := b.start + b.body.length

/-- Control may leave the straight line after this instruction. -/
def endsBlock (i : Instruction) : Bool := i.jumpTarget?.isSome || i.isTerminator

def startsBlock (i : Instruction) : Bool := i.label?.isSome

def runs : List Instruction → List (List Instruction)
  | [] => []
  | i :: rest =>
      match runs rest with
      | (next :: run) :: more =>
          if endsBlock i || startsBlock next then [i] :: (next :: run) :: more
          else (i :: next :: run) :: more
      | more => [i] :: more

/-- The labels at the starts of runs with the places of the runs, the last one
first. -/
def heads (runs : List (List Instruction)) : List (String × Nat) :=
  (runs.zipIdx.filterMap fun (run, place) =>
    (run.head?.bind Instruction.label?).map fun label => (label, place)).reverse

/-- Where control can go after the last instruction of the block at the given
place of `count` blocks: to the last block that starts with the label of a jump, then
to the next block unless it ends for good. -/
def successorsOf (heads : List (String × Nat)) (count place : Nat) (last : Instruction) :
    List Nat :=
  let jumped := (last.jumpTarget?.bind fun label => heads.lookup label).toList
  let next := if !last.isTerminator && place + 1 < count then [place + 1] else []
  (jumped ++ next).eraseDups

/-- The blocks of runs, the first of which has the given place and starts at the
given index. -/
def locate (heads : List (String × Nat)) (count place start : Nat) :
    List (List Instruction) → List BasicBlock
  | [] => []
  | run :: rest =>
      ⟨start, run, (run.getLast?.map (successorsOf heads count place)).getD []⟩ ::
        locate heads count (place + 1) (start + run.length) rest

def split (code : List Instruction) : List BasicBlock :=
  let runs := runs code
  locate (heads runs) runs.length 0 0 runs

def next (blocks : Array BasicBlock) (place : Nat) : List Nat :=
  (blocks[place]?.map successors).getD []

def reach (blocks : List BasicBlock) : Reach := Reach.ofFirst (next blocks.toArray) blocks.length

/-- Notes that control can go from the block at `source` to those at `targets`. -/
def precede (source : Nat) (targets : List Nat) (table : Array (List Nat)) : Array (List Nat) :=
  targets.foldl (fun table target => table.modify target (source :: ·)) table

def predecessors (blocks : List BasicBlock) : Array (List Nat) :=
  (blocks.zipIdx.foldl (fun table (b, place) => precede place b.successors table)
    (Array.replicate blocks.length [])).map List.reverse

def text (b : BasicBlock) (place : Nat) : String :=
  "block " ++ toString place ++ " [" ++ toString b.start ++ ", " ++ toString b.stop ++ ")" ++
    (if b.successors.isEmpty then "" else " ->") ++
    String.join (b.successors.map fun s => " " ++ toString s)

end BasicBlock
end Statecraft
