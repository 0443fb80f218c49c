import Statecraft.Proofs.RunVerdicts

/-! Loops go as the verdicts say, if what they repeat does: with each round there is less fuel for
the run and for the verdict alike. -/
namespace Statecraft
namespace Parser

variable {tape : Tape} {marks : List Bookmark} {α β : Type} {run : Runner α} {judge : Judge α}

theorem runSkipUntil_follows (body : Follows tape run judge) (fuel : Nat) :
    Follows tape (runSkipUntil run fuel) (judgeSkipUntil judge fuel) := by
  refine ⟨runSkipUntil_steady body.steady fuel, judgeSkipUntil_shrinks body.shrinks fuel, ?_⟩
  induction fuel with
  | zero => exact fun _ => .stuck
  | succ fuel ih =>
    intro ctx start marks stands
    have first := body.meets stands
    simp only [runSkipUntil, judgeSkipUntil]
    generalize judge start = verdict, run ctx = result at first ⊢
    cases first with
    | reads there => exact .reads there
    | @fails rest blamed r after located there =>
      cases rest with
      | nil =>
        simp only [Context.advance?, Reader.advance_end there.reader, Option.map_none]
        exact .fails located there
      | cons t rest =>
        obtain ⟨next, moved, further⟩ := there.advance
        simp only [moved]
        exact ih further
    | reports loud =>
      refine .reports ?_
      obtain ⟨outcome, after⟩ := result
      cases outcome with
      | ok | stuck => exact loud
      | failed r =>
        dsimp only
        split
        · rename_i next moved
          exact (runSkipUntil_steady body.steady fuel).loud
            ((Context.Extends.advance moved).loud loud)
        · exact loud
    | stuck => exact .stuck

theorem prepend_meets (value : α) {verdict : Verdict (List α)} {result : Outcome (List α) × Context}
    (meets : Meets tape marks verdict result) :
    Meets tape marks (verdict.map (value :: ·)) (prepend value result) := by
  cases meets with
  | reads there => exact .reads there
  | fails located there => exact .fails located there
  | reports loud => exact .reports loud
  | stuck => exact .stuck

theorem runMany_follows (body : Follows tape run judge) (fuel : Nat) :
    Follows tape (runMany run fuel) (judgeMany judge fuel) := by
  refine ⟨runMany_steady body.steady fuel, judgeMany_shrinks body.shrinks fuel, ?_⟩
  induction fuel with
  | zero => exact fun _ => .stuck
  | succ fuel ih =>
    intro ctx start marks stands
    cases start with
    | nil =>
      simp only [runMany, stands.reader.atEnd.mpr rfl, if_true]
      exact .reads stands
    | cons t more =>
      have first := body.meets stands
      have within := body.shrinks (t :: more)
      have inside : ctx.reader.atEnd = false := by
        rw [← Bool.not_eq_true, stands.reader.atEnd]
        simp
      simp only [runMany, judgeMany, inside, Bool.false_eq_true, if_false]
      generalize judge (t :: more) = verdict, run ctx = result at first within ⊢
      cases first with
      | reads there => exact prepend_meets _ (ih there)
      | fails located there =>
        simp only [stands.progressed located (within.1.trans within.2), decide_eq_true_eq, ne_eq,
          ite_not]
        split
        · exact .reads there
        · exact .fails located there
      | reports loud =>
        refine .reports ?_
        obtain ⟨outcome, after⟩ := result
        cases outcome with
        | ok value => exact (runMany_steady body.steady fuel).loud loud
        | failed r =>
          dsimp only
          split <;> exact loud
        | stuck => exact loud
      | stuck => exact .stuck

theorem runManyUntil_follows {stop : Runner β} {ends : Judge β} (body : Follows tape run judge)
    (stops : Follows tape stop ends) (fuel : Nat) :
    Follows tape (runManyUntil run stop fuel) (judgeManyUntil judge ends fuel) := by
  refine ⟨runManyUntil_steady body.steady stops.steady fuel,
    judgeManyUntil_shrinks body.shrinks stops.shrinks fuel, ?_⟩
  induction fuel with
  | zero => exact fun _ => .stuck
  | succ fuel ih =>
    have again := runManyUntil_steady body.steady stops.steady fuel
    intro ctx start marks stands
    have first := stops.meets stands
    have within := stops.shrinks start
    simp only [runManyUntil, judgeManyUntil]
    generalize ends start = verdict, stop ctx = result at first within ⊢
    cases first with
    | reads there => exact .reads there
    | @fails rest blamed r after located there =>
      simp only [stands.progressed located (within.1.trans within.2), Bool.or_eq_true,
        decide_eq_true_eq, there.reader.atEnd]
      by_cases ended : blamed ≠ start ∨ rest = []
      · simp only [ended, if_true]
        exact .fails located there
      · simp only [ended, if_false]
        have refused : blamed = start := Decidable.not_not.mp (not_or.mp ended).1
        subst refused
        obtain rfl := rest_of_blamed within
        have next := body.meets there
        have within' := body.shrinks rest
        generalize judge rest = verdict, run after = result at next within' ⊢
        cases next with
        | reads there => exact prepend_meets _ (ih there)
        | fails located' there =>
          refine .fails ?_ there
          simp only [stands.progressed located' (within'.1.trans within'.2), decide_eq_true_eq]
          split
          · exact located'
          · rename_i same
            rw [Decidable.not_not.mp same] at located' ⊢
            rw [Report.location_mostRelevant (located.trans located'.symm), located]
        | reports loud =>
          refine .reports ?_
          obtain ⟨outcome, last⟩ := result
          cases outcome with
          | ok value => exact again.loud loud
          | failed | stuck => exact loud
        | stuck => exact .stuck
    | reports loud =>
      refine .reports ?_
      obtain ⟨outcome, after⟩ := result
      cases outcome with
      | ok | stuck => exact loud
      | failed r =>
        dsimp only
        split
        · exact loud
        · have louder := body.steady.loud loud
          split <;> rename_i same <;> rw [same] at louder
          · exact again.loud louder
          · exact louder
          · exact louder
    | stuck => exact .stuck

theorem runSeparated_follows {delimiter : Runner β} {delimits : Judge β}
    (body : Follows tape run judge) (between : Follows tape delimiter delimits) (fuel : Nat) :
    Follows tape (runSeparated run delimiter fuel) (judgeSeparated judge delimits fuel) := by
  refine ⟨runSeparated_steady body.steady between.steady fuel,
    judgeSeparated_shrinks body.shrinks between.shrinks fuel, ?_⟩
  induction fuel with
  | zero => exact fun _ => .stuck
  | succ fuel ih =>
    have again := runSeparated_steady body.steady between.steady fuel
    intro ctx start marks stands
    have first := body.meets stands
    have within := body.shrinks start
    simp only [runSeparated, judgeSeparated]
    generalize judge start = verdict, run ctx = result at first within ⊢
    cases first with
    | @reads value rest after there =>
      have next := between.meets there
      have within' := between.shrinks rest
      simp only [Verdict.andThen]
      generalize delimits rest = verdict, delimiter after = result at next within' ⊢
      cases next with
      | reads there => exact prepend_meets _ (ih there)
      | fails located there' =>
        simp only [endsList, there.progressed located (within'.1.trans within'.2), Bool.or_eq_true,
          Bool.not_eq_true', decide_eq_false_iff_not, ne_eq, Decidable.not_not, there'.reader.atEnd]
        split
        · exact .reads there'
        · exact .fails located there'
      | reports loud =>
        refine .reports ?_
        obtain ⟨outcome, last⟩ := result
        cases outcome with
        | ok value => exact again.loud loud
        | failed r =>
          dsimp only
          split <;> exact loud
        | stuck => exact loud
      | stuck => exact .stuck
    | fails located there =>
      simp only [endsList, stands.progressed located (within.1.trans within.2), Bool.or_eq_true,
        Bool.not_eq_true', decide_eq_false_iff_not, ne_eq, Decidable.not_not, there.reader.atEnd]
      split
      · exact .reads there
      · exact .fails located there
    | reports loud =>
      refine .reports ?_
      obtain ⟨outcome, after⟩ := result
      cases outcome with
      | ok value =>
        have louder := between.steady.loud loud
        dsimp only
        split <;> rename_i same <;> rw [same] at louder
        · exact again.loud louder
        · split <;> exact louder
        · exact louder
      | failed r =>
        dsimp only
        split <;> exact loud
      | stuck => exact loud
    | stuck => exact .stuck

theorem runChain_follows {operator : Runner β} {operates : Judge β} (combine : α → β → α → α)
    (term : Follows tape run judge) (between : Follows tape operator operates) (fuel : Nat)
    (left : α) :
    Follows tape (runChain run operator combine fuel left)
      (judgeChain judge operates combine fuel left) := by
  refine ⟨runChain_steady term.steady between.steady combine fuel left,
    judgeChain_shrinks term.shrinks between.shrinks fuel left, ?_⟩
  induction fuel generalizing left with
  | zero => exact fun _ => .stuck
  | succ fuel ih =>
    have again := runChain_steady term.steady between.steady combine fuel
    intro ctx start marks stands
    have first := between.meets stands
    have within := between.shrinks start
    simp only [runChain, judgeChain]
    generalize operates start = verdict, operator ctx = result at first within ⊢
    cases first with
    | @reads op rest after there =>
      have next := term.meets there
      simp only [Verdict.andThen]
      generalize judge rest = verdict, run after = result at next ⊢
      cases next with
      | reads there => exact ih _ there
      | fails located there => exact .fails located there
      | reports loud =>
        refine .reports ?_
        obtain ⟨outcome, last⟩ := result
        cases outcome with
        | ok value => exact (again _).loud loud
        | failed | stuck => exact loud
      | stuck => exact .stuck
    | fails located there =>
      simp only [stands.progressed located (within.1.trans within.2), decide_eq_true_eq, ne_eq,
        ite_not]
      split
      · exact .reads there
      · exact .fails located there
    | reports loud =>
      refine .reports ?_
      obtain ⟨outcome, after⟩ := result
      cases outcome with
      | ok op =>
        have louder := term.steady.loud loud
        dsimp only
        split
        · rename_i same
          rw [same] at louder
          exact (again _).loud louder
        · exact louder
      | failed r =>
        dsimp only
        split <;> exact loud
      | stuck => exact loud
    | stuck => exact .stuck

end Parser
end Statecraft
