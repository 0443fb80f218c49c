import Statecraft.Proofs.Folding
import Statecraft.Proofs.Liveness
import Statecraft.Proofs.CodeShape

/-! Nothing left to fold. A sweep leaves no fold behind, and what is folded afterwards would
have to be brought together by leaving out what stands between. But labels are followed by
what cannot be folded, jumps that go have a label after them, and unreachable code ends with
a label. So removing dead code makes no new fold. -/
namespace Statecraft
namespace Code

variable {a b before short rest code : List Instruction} {constants : List Value}
  {x y : Instruction} {keep : Nat → Bool} {i j : Nat}

def Still (code : List Instruction) : Prop :=
  ∀ before constants x short rest, Folds constants x short →
    code ≠ unfolded before constants x rest

/-- What follows a label cannot be folded with what would stand before it. -/
def Seamed (code : List Instruction) : Prop :=
  ∀ (i : Nat) name y, code[i]? = some (.label name) → code[i + 1]? = some y → y.continues = false

theorem Still.left (still : Still (a ++ b)) : Still a := by
  rintro before constants x short rest folds rfl
  refine still before constants x short (rest ++ b) folds ?_
  simp [unfolded]

/-- An instruction is added that ends no fold. -/
theorem Still.concat (still : Still code)
    (apart : ∀ before constants short, Folds constants x short →
      code ≠ before ++ constants.map .push) : Still (code ++ [x]) := by
  intro before constants y short rest folds same
  rcases List.eq_nil_or_concat rest with rfl | ⟨rest, z, rfl⟩
  · obtain ⟨start, last⟩ := List.append_inj' same rfl
    cases last
    exact apart before constants short folds start
  · rw [unfolded, List.concat_eq_append, ← List.cons_append, ← List.append_assoc] at same
    exact still before constants y short rest folds (List.append_inj' same rfl).1

theorem folds_still (folds : Folds constants x short) (still : Still before) :
    Still (before ++ short) := by
  cases folds with
  | passed => rwa [List.append_nil]
  | binary | unary | taken => exact still.concat nofun

/-- A fold brings nothing together with a label. -/
theorem folds_seamed (folds : Folds constants x short)
    (seamed : Seamed (unfolded before constants x rest)) : Seamed (folded before short rest) := by
  intro j name y here next
  obtain ⟨i, aligned⟩ := aligned_of_label_folded folds here
  have label : (unfolded before constants x rest)[i]? = some (.label name) :=
    aligned.same.trans here
  rcases aligned.next with onward | last
  · exact seamed i name y label (onward.same.trans next)
  · obtain ⟨v, first⟩ := getElem?_first folds
    have apart := seamed i name (.push v) label (last ▸ first)
    contradiction

theorem Shaped.seamed {landings : List String} (shaped : Shaped landings code) : Seamed code :=
  fun _ _ _ => shaped.seam

/-- An instruction that could be folded is kept only with what stands before it. -/
def Joins (code : List Instruction) (keep : Nat → Bool) : Prop :=
  ∀ (i : Nat) y, code[i + 1]? = some y → y.continues = true → keep (i + 1) = true → keep i = true

namespace Joins

/-- So it stands right after the same instruction as before. -/
theorem next (joins : Joins code keep) (kept : keep i = true)
    (there : (thin keep code)[rank keep i + 1]? = some y) (continues : y.continues = true) :
    keep (i + 1) = true ∧ code[i + 1]? = some y := by
  obtain ⟨j, place, kept', current⟩ := of_getElem?_thin there
  cases j with
  | zero => simp [rank] at place
  | succ j =>
    have before := joins j y current continues kept'
    rw [rank_kept before, Nat.add_right_cancel_iff] at place
    obtain rfl := rank_injective before kept place
    exact ⟨kept', current⟩

theorem seamed (joins : Joins code keep) (seamed : Seamed code) : Seamed (thin keep code) := by
  intro k name y here there
  obtain ⟨i, rfl, kept, current⟩ := of_getElem?_thin here
  cases continues : y.continues with
  | false => rfl
  | true =>
    have last := seamed i name y current (joins.next kept there continues).2
    rwa [continues] at last

/-- A piece of what is left is a piece of the whole code, if all of it after its first
instruction could be folded. -/
theorem piece (joins : Joins code keep) {first : Instruction} {more : List Instruction}
    (continues : ∀ y ∈ more, y.continues = true) (piece : first :: more <:+: thin keep code) :
    first :: more <:+: code := by
  obtain ⟨k, -, found⟩ := List.infix_iff_getElem?.mp piece
  obtain ⟨i, place, kept, current⟩ := of_getElem?_thin (found 0 (Nat.zero_lt_succ _))
  have all (n : Nat) (inside : n < (first :: more).length) :
      keep (n + i) = true ∧ rank keep (n + i) = n + k ∧
        code[n + i]? = some (first :: more)[n] := by
    induction n with
    | zero => exact ⟨by rwa [Nat.zero_add], by rw [Nat.zero_add, place], by rwa [Nat.zero_add]⟩
    | succ n ih =>
      obtain ⟨kept, place, -⟩ := ih (Nat.lt_of_succ_lt inside)
      have there := found (n + 1) inside
      rw [Nat.add_right_comm] at there ⊢
      rw [← place] at there
      obtain ⟨kept', current⟩ :=
        joins.next kept there (continues _ (List.getElem_mem (Nat.lt_of_succ_lt_succ inside)))
      exact ⟨kept', by rw [rank_kept kept, place, Nat.add_right_comm], current⟩
  refine List.infix_iff_getElem?.mpr ⟨i, ?_, fun n inside => (all n inside).2.2⟩
  have last := (List.getElem?_eq_some_iff.mp (all more.length (Nat.lt_succ_self _)).2.2).1
  simp only [List.length_cons]
  omega

theorem still (joins : Joins code keep) (still : Still code) : Still (thin keep code) := by
  intro before constants x short rest folds same
  have inThin : constants.map Instruction.push ++ [x] <:+: thin keep code :=
    ⟨before, rest, by simp [same, unfolded]⟩
  obtain ⟨start, after, whole⟩ : constants.map Instruction.push ++ [x] <:+: code := by
    cases folds <;> exact joins.piece (by simp [Instruction.continues]) inThin
  refine still start constants x short after folds ?_
  simp [← whole, unfolded]

end Joins
end Code

namespace Optimize

open Code (Joins Seamed Still)

namespace Folding

variable {f : Folding} {code rest : List Instruction}

theorem step_still (still : Still f.out.reverse) (i : Instruction) :
    Still (f.step i).out.reverse := by
  rcases step_cases f i with ⟨same, apart⟩ | ⟨before, constants, short, folds, old, new⟩
  · rw [same, keep, List.reverse_cons]
    exact still.concat apart
  · rw [new]
    rw [old] at still
    exact Code.folds_still folds still.left

/-- A sweep leaves nothing to fold. -/
theorem sweep_still (code : List Instruction) : Still (sweep code).out.reverse := by
  have all (f : Folding) (still : Still f.out.reverse) : Still (code.foldl step f).out.reverse := by
    induction code generalizing f with
    | nil => exact still
    | cons i rest ih => exact ih (f.step i) (step_still still i)
  refine all start ?_
  intro before constants x short rest folds same
  simp [start, Code.unfolded] at same

/-- Where nothing can be folded, a sweep changes nothing. -/
theorem sweep_of_still (still : Still code) : sweep code = ⟨code.reverse, 0, 0⟩ := by
  have all (f : Folding) (rest : List Instruction) (still : Still (f.out.reverse ++ rest)) :
      rest.foldl step f = { f with out := rest.reverse ++ f.out } := by
    induction rest generalizing f with
    | nil => rfl
    | cons i rest ih =>
      rcases step_cases f i with ⟨same, -⟩ | ⟨before, constants, short, folds, old, -⟩
      · rw [List.foldl_cons, same, ih (f.keep i) (by simpa [keep] using still)]
        simp [keep]
      · exact absurd (by rw [old, Code.unfolded]) (still before constants i short rest folds)
  have swept := all start code still
  rwa [start, List.append_nil] at swept

theorem sweep_seamed (seamed : Seamed code) : Seamed (sweep code).out.reverse :=
  sweep_keeps (fun _ _ _ _ _ => Code.folds_seamed) seamed

end Folding

variable {code : List Instruction}

theorem reached_joins (distinct : (Code.labels code).Nodup) : Joins code (reached code) := by
  intro i y current continues found
  have inside := (List.getElem?_eq_some_iff.mp current).1
  cases (reached_iff distinct inside).mp found with
  | step way flows =>
    cases flows with
    | on => exact (reached_iff distinct (Nat.lt_of_succ_lt inside)).mpr way
    | away _ _ there =>
      cases current.symm.trans there
      contradiction

theorem falls_joins (code : List Instruction) : Joins code fun i => !falls code i := by
  intro i y current continues _
  rw [Bool.not_eq_true']
  cases falling : falls code i with
  | false => rfl
  | true =>
    simp only [falls] at falling
    split at falling
    · rename_i label
      cases current.symm.trans label
      contradiction
    · contradiction

theorem needed_joins (seamed : Seamed code) :
    Joins code fun i => (code[i]?.map (needed code)).getD false := by
  intro i y current continues _
  obtain ⟨x, before⟩ : ∃ x, code[i]? = some x :=
    ⟨_, List.getElem?_eq_getElem (Nat.lt_of_succ_lt (List.getElem?_eq_some_iff.mp current).1)⟩
  cases x with
  | label name =>
    have last := seamed i name y before current
    rw [continues] at last
    contradiction
  | _ => simp only [before, Option.map_some, Option.getD_some, needed]

/-- Removing dead code leaves nothing to fold either. -/
theorem prune_still (linked : Code.Linked code) (seamed : Seamed code) (still : Still code) :
    Still (prune code).code := by
  have unreachable := reached_joins linked.distinct
  have live : Seamed (dropUnreachable code).code ∧ Still (dropUnreachable code).code := by
    rw [dropUnreachable_eq]
    exact ⟨unreachable.seamed seamed, unreachable.still still⟩
  have falling := falls_joins (dropUnreachable code).code
  have onward : Seamed (dropFallthroughJumps (dropUnreachable code).code) ∧
      Still (dropFallthroughJumps (dropUnreachable code).code) := by
    rw [dropFallthroughJumps_eq]
    exact ⟨falling.seamed live.1, falling.still live.2⟩
  rw [prune, dropUnusedLabels_eq]
  exact (needed_joins onward.1).still onward.2

end Optimize
end Statecraft
