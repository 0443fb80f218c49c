import Statecraft.Code.BasicBlock
import Statecraft.Code.Program

/-! Checks the stack discipline of code. Every reachable block is visited once,
in breadth-first order, with the depth of the first way found to it; an
instruction that pops too much is noted and taken to pop what there is, and so is
a block that another way enters with another depth. -/
namespace Statecraft

inductive StackError where
  | underflow (index : Nat) (instruction : Instruction)
  | depths (index : Nat) (known other : Nat)

def StackError.message : StackError → String
  | underflow index i => indexText index ++ " " ++ i.text ++ ": stack underflow"
  | depths index known other =>
      indexText index ++ ": entered with stack depth " ++ toString known ++ " and " ++
        toString other

namespace Verify

/-- The depth after straight code that starts at `index` with the given depth,
and what is wrong on the way. -/
def straight (index depth : Nat) : List Instruction → List StackError × Nat
  | [] => ([], depth)
  | i :: rest =>
      let errors := if depth < i.pops then [StackError.underflow index i] else []
      let (more, last) := straight (index + 1) (max depth i.pops - i.pops + i.pushes) rest
      (errors ++ more, last)

/-- The depth at which each block is entered, if a way to it was found. -/
abbrev Depths := Array (Option Nat)

/-- Compares a depth with those of the successors. New ones are given the depth
and returned. -/
def enter (blocks : Array BasicBlock) (depth : Nat) :
    List Nat → Depths → List StackError × Depths × List Nat
  | [], depths => ([], depths, [])
  | place :: rest, depths =>
      match depths[place]? with
      | some none =>
          let (errors, depths, fresh) :=
            enter blocks depth rest (depths.setIfInBounds place (some depth))
          (errors, depths, place :: fresh)
      | some (some known) =>
          let (errors, depths, fresh) := enter blocks depth rest depths
          let start := (blocks[place]?.map BasicBlock.start).getD 0
          ((if known = depth then [] else [.depths start known depth]) ++ errors, depths, fresh)
      | none => enter blocks depth rest depths

def visit (blocks : Array BasicBlock) : Nat → Depths → List Nat → List StackError
  | 0, _, _ => []
  | _ + 1, _, [] => []
  | fuel + 1, depths, place :: queue =>
      match blocks[place]? with
      | none => visit blocks fuel depths queue
      | some b =>
          let (inside, depth) := straight b.start ((depths[place]?.join).getD 0) b.body
          let (between, depths, fresh) := enter blocks depth b.successors depths
          inside ++ between ++ visit blocks fuel depths (queue ++ fresh)

def errors (code : List Instruction) : List StackError :=
  let blocks := (BasicBlock.split code).toArray
  let start : Depths := (Array.replicate blocks.size none).setIfInBounds 0 (some 0)
  visit blocks blocks.size start [0]

end Verify

def Program.stackErrors (p : Program) : List StackError := Verify.errors p.instructions

end Statecraft
