import Statecraft.Optimize.DeadCode
import Statecraft.Proofs.Blocks
import Statecraft.Proofs.Improvement
import Statecraft.Proofs.Search

/-! Removing dead code leaves instructions out: those of blocks that no way leads to,
jumps to the next instruction, and labels that no jump names. -/
namespace Statecraft.Optimize

open BasicBlock (At placeOf startOf)

variable {code : List Instruction}

/-- The index is in a block that can be reached. -/
def reached (code : List Instruction) (i : Nat) : Bool :=
  (BasicBlock.reach (BasicBlock.split code)).contains (placeOf (BasicBlock.runs code) i)

theorem reached_at {place offset i : Nat} {run : List Instruction}
    (located : At code place offset i run) :
    reached code i = (BasicBlock.reach (BasicBlock.split code)).contains place := by
  rw [reached, located.index, BasicBlock.placeOf_startOf located.here located.inside]

theorem reached_zero (some : 0 < code.length) : reached code 0 = true := by
  obtain ⟨run, located⟩ := At.zero some
  rw [reached_at located]
  refine (Reach.ofFirst_closed _ _).1 ?_
  rw [BasicBlock.length_split]
  exact (List.getElem?_eq_some_iff.mp located.here).1

/-- Control does not leave the blocks that can be reached. -/
theorem reached_flows {i j : Nat} (distinct : (Code.labels code).Nodup)
    (alive : reached code i = true) (flows : Code.Flows code i j) :
    code.length ≤ j ∨ reached code j = true := by
  obtain ⟨place, offset, run, located⟩ := At.exists_of_lt flows.inside
  rw [reached_at located] at alive
  rcases BasicBlock.flows_cases distinct located flows with
    within | ⟨-, past | ⟨place', run', member, there⟩⟩
  · exact .inr (by rw [reached_at within, alive])
  · exact .inl (Nat.le_of_eq past.symm)
  · right
    rw [reached_at there]
    refine (Reach.ofFirst_closed _ _).2 place place' alive ?_ ?_
    · rwa [BasicBlock.next_split]
    · rw [BasicBlock.length_split]
      exact (List.getElem?_eq_some_iff.mp there.here).1

theorem reached_thins (linked : Code.Linked code) :
    Code.Thins code (reached code) fun i => code.length ≤ i ∨ reached code i = true := by
  have stays (i j : Nat) (alive : code.length ≤ i ∨ reached code i = true)
      (flows : Code.Flows code i j) : code.length ≤ j ∨ reached code j = true := by
    rcases alive with past | alive
    · exact absurd flows.inside (Nat.not_lt_of_le past)
    · exact reached_flows linked.distinct alive flows
  refine ⟨?_, stays, ?_, ?_⟩
  · rcases Nat.eq_zero_or_pos code.length with none | some
    · exact .inl (Nat.le_of_eq none)
    · exact .inr (reached_zero some)
  · intro i x alive current dropped
    have inside := (List.getElem?_eq_some_iff.mp current).1
    rcases alive with past | alive
    · omega
    · simp [alive] at dropped
  · intro i j x label alive current jumps there
    have inside := (List.getElem?_eq_some_iff.mp there).1
    exact (stays i j (.inr alive) (.away current jumps there)).resolve_left (by omega)

/-- The blocks that are kept, one after the other. -/
theorem flatMap_kept (reach : Reach) (heads : List (String × Nat)) (count first start : Nat)
    (runs : List (List Instruction)) :
    (((BasicBlock.locate heads count first start runs).zipIdx first).filter fun (_, place) =>
        reach.contains place).flatMap (fun (b, _) => b.body) =
      Code.thin (fun i => reach.contains (first + placeOf runs i)) runs.flatten := by
  induction runs generalizing first start with
  | nil => rfl
  | cons run rest ih =>
    have here : Code.thin (fun i => reach.contains (first + placeOf (run :: rest) i)) run =
        if reach.contains first then run else [] :=
      Code.thin_constant _ fun i inside => by simp [placeOf, inside]
    have later : (fun i => reach.contains (first + placeOf (run :: rest) (i + run.length))) =
        fun i => reach.contains (first + 1 + placeOf rest i) := by
      funext i
      rw [placeOf, if_neg (by omega), Nat.add_sub_cancel]
      congr 1
      omega
    rw [List.flatten_cons, Code.thin_append, here, later, ← ih (first + 1) (start + run.length)]
    cases kept : reach.contains first <;> simp [BasicBlock.locate, kept]

theorem dropUnreachable_eq (code : List Instruction) :
    (dropUnreachable code).code = Code.thin (reached code) code := by
  have kept := flatMap_kept (BasicBlock.reach (BasicBlock.split code))
    (BasicBlock.heads (BasicBlock.runs code)) (BasicBlock.runs code).length 0 0
    (BasicBlock.runs code)
  simp only [Nat.zero_add, (BasicBlock.runs_spec code).1] at kept
  exact kept

/-- The jump at the index leads to the label that comes next. -/
def falls (code : List Instruction) (i : Nat) : Bool :=
  match code[i]?, code[i + 1]? with
  | some (.jump target), some (.label name) => target == name
  | _, _ => false

theorem dropFallthroughJumps_cons (i : Instruction) (rest : List Instruction) :
    dropFallthroughJumps (i :: rest) =
      if falls (i :: rest) 0 then dropFallthroughJumps rest
      else i :: dropFallthroughJumps rest := by
  rcases rest with _ | ⟨next, rest⟩
  · cases i <;> rfl
  · cases i with
    | jump => cases next <;> rfl
    | _ => rfl

theorem dropFallthroughJumps_eq (code : List Instruction) :
    dropFallthroughJumps code = Code.thin (fun i => !falls code i) code := by
  induction code with
  | nil => rfl
  | cons i rest ih =>
    rw [dropFallthroughJumps_cons, ih, Code.thin]
    cases falls (i :: rest) 0 <;> rfl

theorem falls_thins (code : List Instruction) :
    Code.Thins code (fun i => !falls code i) fun _ => True := by
  refine ⟨trivial, fun _ _ _ _ => trivial, ?_, ?_⟩
  · intro i x _ current dropped
    simp only [falls, Bool.not_eq_false'] at dropped
    split at dropped
    · rename_i target name jump label
      obtain rfl : target = name := by simpa using dropped
      exact .jump jump label
    · contradiction
  · intro i j x label _ _ _ there
    simp [falls, there]

def needed (code : List Instruction) : Instruction → Bool
  | .label name => !(isFresh name && name ∉ Code.jumpTargets code)
  | _ => true

theorem dropUnusedLabels_eq (code : List Instruction) :
    dropUnusedLabels code = Code.thin (fun i => (code[i]?.map (needed code)).getD false) code := by
  rw [← Code.filter_eq_thin]
  refine List.filter_congr fun i _ => ?_
  cases i <;> rfl

theorem needed_thins (code : List Instruction) :
    Code.Thins code (fun i => (code[i]?.map (needed code)).getD false) fun _ => True := by
  refine ⟨trivial, fun _ _ _ _ => trivial, ?_, ?_⟩
  · intro i x _ current dropped
    simp only [current, Option.map_some, Option.getD_some] at dropped
    cases x <;> simp only [needed, Bool.true_eq_false] at dropped
    exact .label current
  · intro i j x label _ current jumps there
    have named : label ∈ Code.jumpTargets code :=
      List.mem_filterMap.mpr ⟨x, List.mem_of_getElem? current, jumps⟩
    simp [there, needed, named]

/-- Removing dead code improves every program. -/
theorem prune_improves (p : Program) : p.Improves (prune p.instructions).code := by
  have live : p.Improves (dropUnreachable p.instructions).code := by
    rw [dropUnreachable_eq]
    exact .of_thins (reached_thins p.linked)
  have falling := live.andThen dropFallthroughJumps fun q => by
    rw [dropFallthroughJumps_eq]
    exact .of_thins (falls_thins q.instructions)
  exact falling.andThen dropUnusedLabels fun q => by
    rw [dropUnusedLabels_eq]
    exact .of_thins (needed_thins q.instructions)

end Statecraft.Optimize
