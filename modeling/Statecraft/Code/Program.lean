import Statecraft.Code.Instruction
import Statecraft.Graph
import Statecraft.Symbol

/-! Assembled programs: every label is defined once and every jump has its label.
Assembling instructions either yields such a program or names the first label
that is defined again or, failing that, the first jump that leads nowhere. -/
namespace Statecraft

inductive AssemblyError where
  | duplicateLabel (label : String)
  | undefinedLabel (label : String) (index : Nat)
deriving DecidableEq, Repr

def AssemblyError.message : AssemblyError → String
  | duplicateLabel label => "duplicate label: " ++ label
  | undefinedLabel label index => "undefined label: " ++ label ++ " at " ++ toString index

namespace Code

def labels (code : List Instruction) : List String := code.filterMap Instruction.label?

def jumpTargets (code : List Instruction) : List String := code.filterMap Instruction.jumpTarget?

/-- The first label that stands in `seen` or earlier in the list. -/
def firstRepeat? (seen : List String) : List String → Option String
  | [] => none
  | label :: rest => if label ∈ seen then some label else firstRepeat? (label :: seen) rest

theorem firstRepeat?_eq_none {seen ls : List String} (h : firstRepeat? seen ls = none) :
    ls.Nodup ∧ ∀ l ∈ ls, l ∉ seen := by
  induction ls generalizing seen with
  | nil => simp
  | cons label rest ih =>
    simp only [firstRepeat?] at h
    split at h
    · contradiction
    · have ⟨distinct, apart⟩ := ih h
      refine ⟨List.nodup_cons.mpr ⟨fun member => ?_, distinct⟩, ?_⟩
      · exact apart label member List.mem_cons_self
      · intro l member
        rcases List.mem_cons.mp member with rfl | member
        · assumption
        · exact fun inSeen => apart l member (List.mem_cons_of_mem _ inSeen)

/-- The first jump to a label that is not defined; `index` counts from the front. -/
def firstUndefined? (defined : List String) (index : Nat) :
    List Instruction → Option (String × Nat)
  | [] => none
  | i :: rest =>
      match i.jumpTarget? with
      | some label =>
          if label ∈ defined then firstUndefined? defined (index + 1) rest
          else some (label, index)
      | none => firstUndefined? defined (index + 1) rest

theorem firstUndefined?_eq_none {defined : List String} {index : Nat} {code : List Instruction}
    (h : firstUndefined? defined index code = none) : ∀ l ∈ jumpTargets code, l ∈ defined := by
  induction code generalizing index with
  | nil => simp [jumpTargets]
  | cons i rest ih =>
    simp only [firstUndefined?] at h
    cases target : i.jumpTarget? with
    | none =>
      simp only [target] at h
      simpa [jumpTargets, target] using ih h
    | some label =>
      simp only [target] at h
      split at h
      · rename_i member
        have rest := ih h
        simp only [jumpTargets] at rest
        simpa [jumpTargets, target, member] using rest
      · contradiction

end Code

/-- Assembled code with the names and the state graph it was compiled with. -/
structure Program where
  code : Array Instruction
  symbols : Symbols
  graph : Option Graph
  labels_nodup : (Code.labels code.toList).Nodup
  targets_defined : ∀ l ∈ Code.jumpTargets code.toList, l ∈ Code.labels code.toList

namespace Program

def assemble (code : List Instruction) (symbols : Symbols) (graph : Option Graph) :
    Except AssemblyError Program :=
  match distinct : Code.firstRepeat? [] (Code.labels code) with
  | some label => .error (.duplicateLabel label)
  | none =>
      match defined : Code.firstUndefined? (Code.labels code) 0 code with
      | some (label, index) => .error (.undefinedLabel label index)
      | none => .ok
          { code := code.toArray
            symbols := symbols
            graph := graph
            labels_nodup := by simpa using (Code.firstRepeat?_eq_none distinct).1
            targets_defined := by simpa using Code.firstUndefined?_eq_none defined }

def instructions (p : Program) : List Instruction := p.code.toList

def size (p : Program) : Nat := p.code.size

def resolve? (p : Program) (label : String) : Option Nat :=
  p.code.findIdx? (·.defines label)

/-- One instruction a line with its index; labels stand without one. -/
def listing (p : Program) (withLocations : Bool) : String :=
  let line (entry : Instruction × Nat) : String :=
    match entry with
    | (.label name, _) => "      " ++ (Instruction.label name).text ++ "\n"
    | (i, index) =>
        if i.isLocation && !withLocations then "" else indexText index ++ "  " ++ i.text ++ "\n"
  String.join (p.instructions.zipIdx.map line)

end Program
end Statecraft
