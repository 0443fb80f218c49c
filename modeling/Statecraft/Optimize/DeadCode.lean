import Statecraft.Code.BasicBlock

/-! Removing code that never runs: blocks no path from the start reaches, jumps
to the very next instruction, and fresh labels that no jump names. Labels of
states stay. -/
namespace Statecraft.Optimize

structure Live where
  code : List Instruction
  removed : Nat

def dropUnreachable (code : List Instruction) : Live :=
  let blocks := BasicBlock.split code
  let reach := BasicBlock.reach blocks
  let kept := blocks.zipIdx.filter fun (_, place) => reach.contains place
  ⟨kept.flatMap fun (b, _) => b.body, blocks.length - kept.length⟩

/-- Drops each jump to a label that comes next. -/
def dropFallthroughJumps : List Instruction → List Instruction
  | [] => []
  | i :: rest =>
      let falls : Bool :=
        match i, rest with
        | .jump target, .label name :: _ => target == name
        | _, _ => false
      if falls then dropFallthroughJumps rest else i :: dropFallthroughJumps rest

/-- The label was made by the compiler. -/
def isFresh (label : String) : Bool := label.toList.head? = some '$'

/-- Drops fresh labels that no jump names. -/
def dropUnusedLabels (code : List Instruction) : List Instruction :=
  let used := code.filterMap Instruction.jumpTarget?
  code.filter fun i =>
    match i with
    | .label name => !(isFresh name && name ∉ used)
    | _ => true

structure Pruned where
  code : List Instruction
  blocks : Nat
  changed : Bool

/-- Removes blocks, then jumps, then labels. -/
def prune (code : List Instruction) : Pruned :=
  let live := dropUnreachable code
  let falling := dropFallthroughJumps live.code
  let labelled := dropUnusedLabels falling
  ⟨labelled, live.removed,
    0 < live.removed || falling.length < live.code.length || labelled.length < falling.length⟩

end Statecraft.Optimize
