import Statecraft.Proofs.Optimization
import Statecraft.Proofs.CodeShape

/-! The pace of control. Jumps lead on, except to labels that have a location right after
them, so control that comes round meets a location. Optimising keeps it that way: a fold
changes no label, and a label that is kept keeps its location. -/
namespace Statecraft
namespace Code

variable {before short rest code : List Instruction} {constants : List Value} {x : Instruction}
  {keep : Nat → Bool} {i j : Nat}

/-- Control never gets past the end, and when it turns back, a location comes next. -/
structure Paced (code : List Instruction) : Prop where
  closes : Closes code
  turns : ∀ (i j : Nat) x name, code[i]? = some x → x.jumpTarget? = some name →
    code[j]? = some (.label name) → i < j ∨ ∃ span, code[j + 1]? = some (.location span)

/-- Where the last instruction stands. -/
theorem Closes.last (closes : Closes code) :
    ∃ (last : Nat) (z : Instruction), code.length = last + 1 ∧ code[last]? = some z ∧
      z.isTerminator = true := by
  obtain ⟨before, z, rfl, ends⟩ := closes
  exact ⟨before.length, z, by simp, by simp, ends⟩

/-- The last instruction is none of those that control gets past. -/
theorem Closes.lt_last (closes : Closes code) (current : code[i]? = some x)
    (falls : x.isTerminator = false) : i + 1 < code.length := by
  obtain ⟨last, z, length, final, ends⟩ := closes.last
  have inside := (List.getElem?_eq_some_iff.mp current).1
  have other : i ≠ last := by
    rintro rfl
    cases final.symm.trans current
    rw [ends] at falls
    contradiction
  omega

theorem folds_closes (folds : Folds constants x short)
    (closes : Closes (unfolded before constants x rest)) : Closes (folded before short rest) := by
  obtain ⟨start, z, same, ends⟩ := closes
  rcases List.eq_nil_or_concat rest with rfl | ⟨rest, last, rfl⟩
  · obtain ⟨-, final⟩ := List.append_inj' same rfl
    cases final
    cases folds <;> contradiction
  · rw [unfolded, List.concat_eq_append, ← List.cons_append, ← List.append_assoc] at same
    obtain ⟨-, final⟩ := List.append_inj' same rfl
    cases final
    exact ⟨before ++ short ++ rest, z, by simp [folded], ends⟩

/-- A jump after a fold was a jump to the same label before it, and what comes after the jump
came after it then. -/
theorem folds_jump (folds : Folds constants x short) {y : Instruction} {name : String}
    (here : (folded before short rest)[i]? = some y) (jumps : y.jumpTarget? = some name) :
    ∃ i' y', (unfolded before constants x rest)[i']? = some y' ∧ y'.jumpTarget? = some name ∧
      ∀ j' j, Aligned before.length constants.length short.length j' j → i' < j' → i < j := by
  by_cases outside : ∃ i', Aligned before.length constants.length short.length i' i
  · obtain ⟨i', aligned⟩ := outside
    refine ⟨i', y, aligned.same.trans here, jumps, fun j' j aligned' ahead => ?_⟩
    simp only [Aligned] at aligned aligned'
    omega
  · -- The jump is what a conditional jump was folded to.
    obtain ⟨k, rfl⟩ : ∃ k, i = before.length + k := by
      refine Nat.exists_eq_add_of_le (Nat.le_of_not_lt fun early => outside ⟨i, .inl ⟨early, rfl⟩⟩)
    have inside : k < short.length := by
      refine Nat.lt_of_not_le fun past => outside
        ⟨before.length + k + constants.length + 1 - short.length, .inr (by omega)⟩
    cases folds with
    | passed => contradiction
    | binary | unary =>
      obtain rfl : k = 0 := Nat.lt_one_iff.mp inside
      cases here.symm.trans getElem?_short
      contradiction
    | taken truth =>
      obtain rfl : k = 0 := Nat.lt_one_iff.mp inside
      cases here.symm.trans getElem?_short
      refine ⟨_, _, getElem?_consumer, jumps, fun j' j aligned' ahead => ?_⟩
      simp only [Aligned, List.length_singleton] at aligned' ahead
      omega

theorem folds_paced (folds : Folds constants x short)
    (paced : Paced (unfolded before constants x rest)) : Paced (folded before short rest) := by
  refine ⟨folds_closes folds paced.closes, ?_⟩
  intro i j y name here jumps there
  obtain ⟨i', y', here', jumps', onward⟩ := folds_jump folds here jumps
  obtain ⟨j', aligned⟩ := aligned_of_label_folded folds there
  have label : (unfolded before constants x rest)[j']? = some (.label name) :=
    aligned.same.trans there
  rcases paced.turns i' j' y' name here' jumps' label with ahead | ⟨span, location⟩
  · exact .inl (onward j' j aligned ahead)
  · rcases aligned.next with next | last
    · exact .inr ⟨span, next.same.symm.trans location⟩
    · obtain ⟨v, first⟩ := getElem?_first folds
      cases (last ▸ location).symm.trans first

/-- Leaving instructions out keeps the pace if something is kept, if control does not get past
what is kept last, and if no label is kept without its location. -/
theorem Paced.thin (paced : Paced code) (any : ∃ i x, keep i = true ∧ code[i]? = some x)
    (later : ∀ i x, keep i = true → code[i]? = some x → x.isTerminator = false →
      ∃ j y, i < j ∧ keep j = true ∧ code[j]? = some y)
    (landing : ∀ j name span, keep j = true → code[j]? = some (.label name) →
      code[j + 1]? = some (.location span) → keep (j + 1) = true) :
    Paced (thin keep code) := by
  have ahead {i j : Nat} (kept : keep i = true) (less : i < j) : rank keep i < rank keep j :=
    Nat.lt_of_lt_of_le (rank_kept kept ▸ Nat.lt_succ_self _) (rank_mono keep less)
  constructor
  · rcases List.eq_nil_or_concat (Code.thin keep code) with none | ⟨before, z, whole⟩
    · obtain ⟨i, x, kept, current⟩ := any
      rw [← getElem?_thin kept, none] at current
      contradiction
    · rw [List.concat_eq_append] at whole
      have last : (Code.thin keep code)[before.length]? = some z := by simp [whole]
      obtain ⟨i, place, kept, current⟩ := of_getElem?_thin last
      refine ⟨before, z, whole, ?_⟩
      cases falls : z.isTerminator with
      | true => rfl
      | false =>
        obtain ⟨j, y, less, kept', current'⟩ := later i z kept current falls
        have beyond := ahead kept less
        rw [← getElem?_thin kept', whole] at current'
        have inside := (List.getElem?_eq_some_iff.mp current').1
        simp only [List.length_append, List.length_singleton] at inside
        omega
  · intro k l x name here jumps there
    obtain ⟨i, rfl, kept, current⟩ := of_getElem?_thin here
    obtain ⟨j, rfl, kept', label⟩ := of_getElem?_thin there
    rcases paced.turns i j x name current jumps label with less | ⟨span, location⟩
    · exact .inl (ahead kept less)
    · have next := landing j name span kept' label location
      refine .inr ⟨span, ?_⟩
      rw [← rank_kept kept', getElem?_thin next, location]

/-- So it does if the last instruction is kept. -/
theorem Paced.thin_last (paced : Paced code)
    (last : ∀ i x, code[i]? = some x → x.isTerminator = true → code[i + 1]? = none →
      keep i = true)
    (landing : ∀ j span, code[j]? = some (.location span) → keep j = true) :
    Paced (Code.thin keep code) := by
  obtain ⟨i, z, length, final, ends⟩ := paced.closes.last
  have kept := last i z final ends (List.getElem?_eq_none_iff.mpr (Nat.le_of_eq length))
  refine paced.thin ⟨i, z, kept, final⟩ ?_ fun j _ span _ _ => landing (j + 1) span
  intro j x _ current falls
  have early := paced.closes.lt_last current falls
  exact ⟨i, z, by omega, kept, final⟩

theorem Paced.inside (paced : Paced code) (flows : Flows code i j) : j < code.length := by
  cases flows with
  | on current falls => exact paced.closes.lt_last current falls
  | away _ _ there => exact (List.getElem?_eq_some_iff.mp there).1

/-- A label with a location right after it. -/
def landing (code : List Instruction) (i : Nat) : Bool :=
  (code[i]?.bind Instruction.label?).isSome && (code[i + 1]?.map Instruction.isLocation).getD false

/-- How far control has come towards the next location. Landings are the last stage, since jumps
turn back to them alone. -/
def stage (code : List Instruction) (i : Nat) : Nat :=
  rank (fun i => !landing code i) (if landing code i then code.length else i)

theorem stage_lt (inside : i < code.length) : stage code i < code.length := by
  cases lands : landing code i with
  | true =>
    simp only [stage, lands, if_true]
    exact rank_lt (by simp [lands]) inside
  | false =>
    simp only [stage, lands, Bool.false_eq_true, if_false]
    exact Nat.lt_of_le_of_lt (rank_le _ i) inside

/-- A landing only leads to its location. -/
theorem landing_flows (lands : landing code i = true) (flows : Flows code i j) :
    (code[j]?.map Instruction.isLocation).getD false = true := by
  simp only [landing, Bool.and_eq_true] at lands
  obtain ⟨label, location⟩ := lands
  cases flows with
  | on => exact location
  | @away x _ _ current jumps =>
    rw [current] at label
    cases x <;> contradiction

/-- Control gets on to a later stage until it comes to a location. -/
theorem Paced.stage_flows (paced : Paced code) (flows : Flows code i j)
    (apart : (code[j]?.map Instruction.isLocation).getD false = false) :
    stage code i < stage code j := by
  have here : landing code i = false := by
    refine Bool.eq_false_iff.mpr fun lands => ?_
    rw [landing_flows lands flows] at apart
    contradiction
  have next : rank (fun i => !landing code i) (i + 1) = rank (fun i => !landing code i) i + 1 :=
    rank_kept (by simp [here])
  have upTo {k : Nat} (later : i + 1 ≤ k) :
      rank (fun i => !landing code i) i < rank (fun i => !landing code i) k :=
    Nat.lt_of_lt_of_le (next ▸ Nat.lt_succ_self _) (rank_mono _ later)
  simp only [stage, here, Bool.false_eq_true, if_false]
  cases lands : landing code j with
  | true => exact upTo flows.inside
  | false =>
    refine upTo ?_
    cases flows with
    | on => exact Nat.le_refl _
    | away current jumps label =>
      rcases paced.turns _ _ _ _ current jumps label with ahead | ⟨span, location⟩
      · exact ahead
      · simp [landing, label, location, Instruction.label?, Instruction.isLocation] at lands

end Code

namespace Compile

/-- Compiled code is paced. -/
theorem accepted_paced {program : Source.Program} {earlier reports : List Report} {p : Program}
    (accepted : Compile.program program earlier = .ok ⟨some p, reports⟩) :
    Code.Paced p.instructions := by
  obtain ⟨shaped, closes, lands⟩ := accepted_shaped accepted
  refine ⟨closes, ?_⟩
  intro i j x name current jumps label
  rcases shaped.onward current jumps with within | ⟨j', ahead, there⟩
  · exact .inr (lands name within j label)
  · exact .inl (Code.label_unique p.linked.distinct there label ▸ ahead)

end Compile

namespace Optimize

open Code (Paced)

variable {p : Program} {code : List Instruction}

theorem Folding.sweep_paced (paced : Paced code) : Paced (sweep code).out.reverse :=
  sweep_keeps (fun _ _ _ _ _ => Code.folds_paced) paced

/-- Unreachable code goes, and what control comes to stays with what comes next. -/
theorem reached_paced (linked : Code.Linked code) (paced : Paced code) :
    Paced (Code.thin (reached code) code) := by
  have onward {i : Nat} {x : Instruction} (found : reached code i = true)
      (current : code[i]? = some x) (falls : x.isTerminator = false) :
      reached code (i + 1) = true := by
    have inside := paced.closes.lt_last current falls
    exact (reached_flows linked.distinct found (.on current falls)).resolve_left
      (Nat.not_le_of_lt inside)
  obtain ⟨last, z, length, -, -⟩ := paced.closes.last
  have some : 0 < code.length := by omega
  refine paced.thin ⟨0, _, reached_zero some, List.getElem?_eq_getElem some⟩ ?_ ?_
  · intro i x found current falls
    exact ⟨i + 1, _, Nat.lt_succ_self i, onward found current falls,
      List.getElem?_eq_getElem (paced.closes.lt_last current falls)⟩
  · intro j name span found label _
    exact onward found label rfl

theorem prune_paced (linked : Code.Linked code) (paced : Paced code) :
    Paced (prune code).code := by
  have live : Paced (dropUnreachable code).code := by
    rw [dropUnreachable_eq]
    exact reached_paced linked paced
  have onward : Paced (dropFallthroughJumps (dropUnreachable code).code) := by
    rw [dropFallthroughJumps_eq]
    refine live.thin_last ?_ ?_
    · intro i x current ends last
      simp [falls, current, last]
    · intro j span location
      simp [falls, location]
  rw [prune, dropUnusedLabels_eq]
  refine onward.thin_last ?_ ?_
  · intro i x current ends _
    cases x <;> first | contradiction | simp [current, needed]
  · intro j span location
    simp [location, needed]

theorem Pass.run_paced (pass : Pass) (stats : Stats) (linked : Code.Linked code)
    (paced : Paced code) : Paced (pass.run code stats).code := by
  cases pass with
  | constantFolding => exact Folding.sweep_paced paced
  | deadCodeElimination => exact prune_paced linked paced

/-- Optimising keeps the pace. -/
theorem optimize_paced {passes : List Pass} {limit : Nat} {optimized : Optimized}
    (accepted : (optimize passes limit p).2 = .ok optimized) (paced : Paced p.instructions) :
    Paced optimized.program.instructions := by
  have keeps (pass : Pass) (stats : Stats) (code : List Instruction)
      (holds : p.Improves code ∧ Paced code) :
      p.Improves (pass.run code stats).code ∧ Paced (pass.run code stats).code :=
    ⟨pass.run_andThen stats holds.1, pass.run_paced stats holds.1.linked holds.2⟩
  rw [(optimize_parts accepted).1]
  exact (rounds_keep keeps limit 0 ⟨.refl p, paced⟩).2

end Optimize
end Statecraft
