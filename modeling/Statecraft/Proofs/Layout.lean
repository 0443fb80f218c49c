import Statecraft.Code.Program

/-! Where code stands in a program. A segment is code at a place of the program; a
label stands at one place only, and that is where its jumps lead. -/
namespace Statecraft

namespace Code

@[simp] theorem labels_nil : labels [] = [] := rfl

@[simp] theorem labels_append (a b : List Instruction) :
    labels (a ++ b) = labels a ++ labels b := by
  simp [labels]

theorem labels_cons (i : Instruction) (code : List Instruction) :
    labels (i :: code) = i.label?.toList ++ labels code := by
  cases i <;> rfl

@[simp] theorem jumpTargets_nil : jumpTargets [] = [] := rfl

@[simp] theorem jumpTargets_append (a b : List Instruction) :
    jumpTargets (a ++ b) = jumpTargets a ++ jumpTargets b := by
  simp [jumpTargets]

theorem jumpTargets_cons (i : Instruction) (code : List Instruction) :
    jumpTargets (i :: code) = i.jumpTarget?.toList ++ jumpTargets code := by
  cases i <;> rfl

theorem mem_labels {code : List Instruction} {name : String} :
    name ∈ labels code ↔ .label name ∈ code := by
  simp only [labels, List.mem_filterMap]
  constructor
  · rintro ⟨i, member, defined⟩
    cases i <;> simp only [Instruction.label?, Option.some.injEq, reduceCtorEq] at defined
    exact defined ▸ member
  · intro member
    exact ⟨_, member, rfl⟩

theorem label_unique {code : List Instruction} {name : String} {i j : Nat}
    (distinct : (labels code).Nodup) (first : code[i]? = some (.label name))
    (second : code[j]? = some (.label name)) : i = j := by
  induction code generalizing i j with
  | nil => simp at first
  | cons head rest ih =>
    have inRest {k : Nat} (here : rest[k]? = some (.label name)) : name ∈ labels rest :=
      mem_labels.mpr (List.mem_of_getElem? here)
    have apart (same : head = .label name) : name ∉ labels rest := by
      subst same
      exact (List.nodup_cons.mp (show (name :: labels rest).Nodup from distinct)).1
    have restDistinct : (labels rest).Nodup :=
      distinct.sublist ((List.sublist_cons_self head rest).filterMap _)
    cases i with
    | zero =>
      cases j with
      | zero => rfl
      | succ j => exact absurd (inRest second) (apart (by simpa using first))
    | succ i =>
      cases j with
      | zero => exact absurd (inRest first) (apart (by simpa using second))
      | succ j => exact congrArg (· + 1) (ih restDistinct first second)

end Code

namespace Program

/-- The code stands in the program from the given index on. -/
def Segment (p : Program) (start : Nat) (code : List Instruction) : Prop :=
  ∀ k i, code[k]? = some i → p.code[start + k]? = some i

namespace Segment

variable {p : Program} {start : Nat} {a b c : List Instruction} {i : Instruction}

theorem left (segment : p.Segment start (a ++ b)) : p.Segment start a := by
  intro k i here
  have inside : k < a.length := (List.getElem?_eq_some_iff.mp here).1
  exact segment k i (by rwa [List.getElem?_append_left inside])

theorem right (segment : p.Segment start (a ++ b)) : p.Segment (start + a.length) b := by
  intro k i here
  rw [Nat.add_assoc]
  refine segment (a.length + k) i ?_
  rw [List.getElem?_append_right (by omega)]
  simpa using here

theorem head (segment : p.Segment start (i :: a)) : p.code[start]? = some i :=
  segment 0 i rfl

theorem tail (segment : p.Segment start (i :: a)) : p.Segment (start + 1) a := by
  intro k j here
  rw [Nat.add_right_comm, Nat.add_assoc]
  exact segment (k + 1) j here

theorem of_instructions (same : p.instructions = a ++ b ++ c) : p.Segment a.length b := by
  intro k i here
  have inside : k < b.length := (List.getElem?_eq_some_iff.mp here).1
  rw [← Array.getElem?_toList, show p.code.toList = a ++ b ++ c from same, List.append_assoc,
    List.getElem?_append_right (by omega), List.getElem?_append_left (by omega)]
  simpa using here

end Segment

variable {p : Program} {name : String} {index : Nat}

/-- A label stands where its jumps lead. -/
theorem resolve?_of_label (here : p.code[index]? = some (.label name)) :
    p.resolve? name = some index := by
  have inside : index < p.code.size := (Array.getElem?_eq_some_iff.mp here).1
  cases found : p.resolve? name with
  | none =>
    have none := Array.findIdx?_eq_none_iff.mp found (.label name) (Array.mem_of_getElem? here)
    simp [Instruction.defines] at none
  | some other =>
    obtain ⟨bound, defines, -⟩ := Array.findIdx?_eq_some_iff_getElem.mp found
    have there : p.code[other]? = some (.label name) := by
      rw [Array.getElem?_eq_getElem bound]
      cases same : p.code[other] <;>
        simp only [same, Instruction.defines, Bool.false_eq_true, beq_iff_eq] at defines
      rw [defines]
    rw [← Array.getElem?_toList] at here there
    rw [Code.label_unique p.labels_nodup there here]

/-- Every jump leads to its label. -/
theorem label_of_target {i : Instruction} (here : p.code[index]? = some i)
    (jumps : i.jumpTarget? = some name) :
    ∃ target : Nat, p.code[target]? = some (.label name) ∧ p.resolve? name = some target := by
  have named : name ∈ Code.jumpTargets p.code.toList :=
    List.mem_filterMap.mpr ⟨i, Array.mem_toList_iff.mpr (Array.mem_of_getElem? here), jumps⟩
  have defined := Code.mem_labels.mp (p.targets_defined name named)
  obtain ⟨target, there⟩ := List.mem_iff_getElem?.mp defined
  rw [Array.getElem?_toList] at there
  exact ⟨target, there, resolve?_of_label there⟩

theorem label_of_resolve? (found : p.resolve? name = some index) :
    p.code[index]? = some (.label name) := by
  obtain ⟨bound, defines, -⟩ := Array.findIdx?_eq_some_iff_getElem.mp found
  rw [Array.getElem?_eq_getElem bound]
  cases same : p.code[index] <;>
    simp only [same, Instruction.defines, Bool.false_eq_true, beq_iff_eq] at defines
  rw [defines]

end Program
end Statecraft
