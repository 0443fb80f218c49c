import Statecraft.Proofs.Layout

/-! The stack discipline of code, said without a search. Every way through the code
has a stack depth at each instruction on it. The code is balanced if no instruction
on a way takes more than there is, and if all ways to an instruction have the same
depth there. -/
namespace Statecraft
namespace Code

variable {code : List Instruction} {x : Instruction} {i j d e : Nat} {label : String}

/-- Control can go from one index to another, whatever is on the stack. -/
inductive Flows (code : List Instruction) (i : Nat) : Nat → Prop where
  | on {x : Instruction} (current : code[i]? = some x) (falls : x.isTerminator = false) :
      Flows code i (i + 1)
  | away {x : Instruction} {label : String} {j : Nat} (current : code[i]? = some x)
      (jumps : x.jumpTarget? = some label) (there : code[j]? = some (.label label)) : Flows code i j

/-- A way from the start gets to the index with the given stack depth. -/
inductive Reaches (code : List Instruction) : Nat → Nat → Prop where
  | start : Reaches code 0 0
  | step {i j d : Nat} {x : Instruction} (here : Reaches code i d) (current : code[i]? = some x)
      (enough : x.pops ≤ d) (flows : Flows code i j) : Reaches code j (d - x.pops + x.pushes)

/-- No way takes too much from the stack, and all ways to an instruction have the same
depth there. -/
structure Balanced (code : List Instruction) : Prop where
  enough : ∀ i d x, Reaches code i d → code[i]? = some x → x.pops ≤ d
  agree : ∀ i d e x, Reaches code i d → Reaches code i e → code[i]? = some x → d = e

/-- Every label is defined once and every jump has its label. -/
structure Linked (code : List Instruction) : Prop where
  distinct : (labels code).Nodup
  defined : ∀ l ∈ jumpTargets code, l ∈ labels code

theorem Linked.target (linked : Linked code) (current : code[i]? = some x)
    (jumps : x.jumpTarget? = some label) : ∃ j : Nat, code[j]? = some (.label label) := by
  have named : label ∈ jumpTargets code :=
    List.mem_filterMap.mpr ⟨x, List.mem_of_getElem? current, jumps⟩
  exact List.mem_iff_getElem?.mp (mem_labels.mp (linked.defined label named))

theorem Flows.inside (flows : Flows code i j) : i < code.length := by
  cases flows with
  | on current => exact (List.getElem?_eq_some_iff.mp current).1
  | away current => exact (List.getElem?_eq_some_iff.mp current).1

theorem Reaches.on {depth : Nat} (here : Reaches code i d) (current : code[i]? = some x)
    (enough : x.pops ≤ d) (falls : x.isTerminator = false)
    (same : depth = d - x.pops + x.pushes) : Reaches code (i + 1) depth :=
  same ▸ .step here current enough (.on current falls)

theorem Reaches.away {depth : Nat} (here : Reaches code i d) (current : code[i]? = some x)
    (enough : x.pops ≤ d) (jumps : x.jumpTarget? = some label)
    (there : code[j]? = some (.label label)) (same : depth = d - x.pops + x.pushes) :
    Reaches code j depth :=
  same ▸ .step here current enough (.away current jumps there)

theorem firstRepeat?_of_nodup {seen names : List String} (distinct : names.Nodup)
    (apart : ∀ l ∈ names, l ∉ seen) : firstRepeat? seen names = none := by
  induction names generalizing seen with
  | nil => rfl
  | cons name rest ih =>
    obtain ⟨first, others⟩ := List.nodup_cons.mp distinct
    rw [firstRepeat?, if_neg (apart name List.mem_cons_self)]
    refine ih others fun l member seen => ?_
    rcases List.mem_cons.mp seen with rfl | old
    · exact first member
    · exact apart l (List.mem_cons_of_mem name member) old

theorem firstUndefined?_of_defined {names : List String} (index : Nat)
    (defined : ∀ l ∈ jumpTargets code, l ∈ names) : firstUndefined? names index code = none := by
  induction code generalizing index with
  | nil => rfl
  | cons x rest ih =>
    rw [jumpTargets_cons] at defined
    have later := ih (index + 1) fun l member => defined l (List.mem_append_right _ member)
    cases jumps : x.jumpTarget? with
    | none => simp [firstUndefined?, jumps, later]
    | some label =>
      have known : label ∈ names := defined label (by simp [jumps])
      simp [firstUndefined?, jumps, known, later]

end Code

namespace Program

theorem linked (p : Program) : Code.Linked p.instructions := ⟨p.labels_nodup, p.targets_defined⟩

def recode (p : Program) (code : List Instruction) (linked : Code.Linked code) : Program where
  code := code.toArray
  symbols := p.symbols
  graph := p.graph
  labels_nodup := linked.distinct
  targets_defined := linked.defined

@[simp] theorem instructions_recode (p : Program) {code : List Instruction}
    (linked : Code.Linked code) : (p.recode code linked).instructions = code := rfl

/-- Linked code can be assembled. -/
theorem assemble_linked {code : List Instruction} (linked : Code.Linked code) (symbols : Symbols)
    (graph : Option Graph) :
    assemble code symbols graph =
      .ok ⟨code.toArray, symbols, graph, linked.distinct, linked.defined⟩ := by
  have distinct := Code.firstRepeat?_of_nodup linked.distinct fun _ _ => List.not_mem_nil
  have defined := Code.firstUndefined?_of_defined 0 linked.defined
  unfold assemble
  split
  · rename_i found
    rw [distinct] at found
    contradiction
  · split
    · rename_i found
      rw [defined] at found
      contradiction
    · rfl

theorem assemble_recode (p : Program) {code : List Instruction} (linked : Code.Linked code) :
    assemble code p.symbols p.graph = .ok (p.recode code linked) :=
  assemble_linked linked p.symbols p.graph

theorem getElem?_code (p : Program) (i : Nat) : p.code[i]? = p.instructions[i]? :=
  Array.getElem?_toList.symm

end Program
end Statecraft
