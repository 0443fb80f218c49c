import Statecraft.Code.Instruction

/-! Constant folding. An operator right after the pushes of its operands becomes
the push of its result, and a conditional jump right after a push becomes a jump
or nothing. Only adjacent instructions are folded, and labels are instructions,
so no jump lands inside a folded part. -/
namespace Statecraft.Optimize

/-- Code under construction, last instruction first, and what was folded so far. -/
structure Folding where
  out : List Instruction
  constants : Nat
  branches : Nat

namespace Folding

def start : Folding := ⟨[], 0, 0⟩

def keep (f : Folding) (i : Instruction) : Folding := { f with out := i :: f.out }

/-- Appends an instruction or folds it with the pushes before it. -/
def step (f : Folding) (i : Instruction) : Folding :=
  match i, f.out with
  | .binary op _ _, .push right :: .push left :: out =>
      match op.meaning? left.type right.type with
      | some meaning =>
          { f with out := .push (meaning.apply left right) :: out, constants := f.constants + 1 }
      | none => f.keep i
  | .unary op _, .push operand :: out =>
      match op.meaning? operand.type with
      | some meaning =>
          { f with out := .push (meaning.apply operand) :: out, constants := f.constants + 1 }
      | none => f.keep i
  | .jumpIfNot label, .push condition :: out =>
      { f with
        out := if condition.toBool then out else .jump label :: out
        branches := f.branches + 1 }
  | _, _ => f.keep i

/-- Folds code in one sweep; results can be folded again. -/
def sweep (code : List Instruction) : Folding := code.foldl step start

end Folding
end Statecraft.Optimize
