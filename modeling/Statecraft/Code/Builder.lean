import Statecraft.Code.Program

/-! Collecting instructions with checked labels. After a build the builder still
takes instructions, but it defines no more labels and cannot be built again. -/
namespace Statecraft.Code

inductive BuilderError where
  | duplicateLabel (label : String)
  | consumed
  /-- A label was to be defined after the build. -/
  | labelsReleased
  | assembly (error : AssemblyError)
deriving DecidableEq, Repr

def BuilderError.message : BuilderError → String
  | duplicateLabel label => "duplicate label: " ++ label
  | consumed => "builder already consumed"
  | labelsReleased => "assignment to entry in nil map"
  | assembly error => error.message

structure Builder where
  code : List Instruction
  labels : List String
  /-- How many fresh labels were made. -/
  counter : Nat
  consumed : Bool

namespace Builder

def empty : Builder := ⟨[], [], 0, false⟩

/-- Appends instructions; labels among them are not looked at. -/
def emit (b : Builder) (code : List Instruction) : Builder := { b with code := b.code ++ code }

def hasLabel (b : Builder) (name : String) : Bool := name ∈ b.labels

def label (b : Builder) (name : String) : Except BuilderError Builder :=
  if b.hasLabel name then .error (.duplicateLabel name)
  else if b.consumed then .error .labelsReleased
  else .ok { b with code := b.code ++ [.label name], labels := name :: b.labels }

/-- The name of the fresh label with the given number. The dollar sign keeps it
apart from every identifier. -/
def freshName (stem : String) (number : Nat) : String := "$" ++ stem ++ toString number

def newLabel (b : Builder) (stem : String) : String × Builder :=
  (freshName stem (b.counter + 1), { b with counter := b.counter + 1 })

/-- Assembles what was collected. The builder is spent even if that fails. -/
def build (b : Builder) (symbols : Symbols) (graph : Option Graph) :
    Except BuilderError Program × Builder :=
  if b.consumed then (.error .consumed, b)
  else
    ((Program.assemble b.code symbols graph).mapError .assembly,
      { b with code := [], labels := [], consumed := true })

end Builder
end Statecraft.Code
