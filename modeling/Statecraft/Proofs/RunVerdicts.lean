import Statecraft.Proofs.Verdict

/-! Runs go as the verdicts say. On a source without stray characters a parser that
starts when nothing has been reported yields, fails, or has something reported as its
verdict on the tokens before the reader tells. -/
namespace Statecraft

/-- Nothing has been reported, and the reader stands on the tape with its bookmarks. -/
structure Context.Stands (tape : Tape) (ctx : Context) (rest : List Token)
    (marks : List Bookmark) : Prop where
  reader : ctx.reader.Stands tape rest
  silent : ctx.reports = []
  marks : ctx.reader.marks = marks

variable {tape : Tape} {ctx : Context} {start rest blamed : List Token} {marks : List Bookmark}
  {α β : Type}

/-- A run ends as the verdict says. -/
inductive Meets (tape : Tape) (marks : List Bookmark) : Verdict α → Outcome α × Context → Prop where
  | reads {value : α} {rest : List Token} {after : Context} (there : after.Stands tape rest marks) :
      Meets tape marks (.reads value rest) (.ok value, after)
  | fails {rest blamed : List Token} {r : Report} {after : Context}
      (located : r.location = tape.place blamed) (there : after.Stands tape rest marks) :
      Meets tape marks (.fails rest blamed) (.failed r, after)
  | reports {result : Outcome α × Context} (loud : result.2.reports ≠ []) :
      Meets tape marks .reports result
  | stuck {result : Outcome α × Context} : Meets tape marks .stuck result

/-- The run goes as the judge says, wherever it starts on the tape. -/
structure Follows (tape : Tape) (run : Runner α) (judge : Judge α) : Prop where
  steady : Steady (fun _ => True) run
  shrinks : judge.Shrinks
  meets : ∀ {ctx start marks}, ctx.Stands tape start marks →
    Meets tape marks (judge start) (run ctx)

/-- What was reported stays reported. -/
theorem Context.Extends.loud {after : Context} (grown : ctx.Extends (fun _ => True) after)
    (loud : ctx.reports ≠ []) : after.reports ≠ [] := by
  obtain ⟨more, same⟩ := grown.reports
  rw [← same]
  exact fun none => loud (List.append_eq_nil_iff.mp none).1

theorem Steady.loud {run : Runner α} (steady : Steady (fun _ => True) run)
    (loud : ctx.reports ≠ []) : (run ctx).2.reports ≠ [] := (steady ctx).loud loud

namespace Context.Stands

theorem location (stands : ctx.Stands tape rest marks) :
    ctx.reader.location = tape.place rest := stands.reader.location

theorem advance {t : Token} (stands : ctx.Stands tape (t :: rest) marks) :
    ∃ next, ctx.advance? = some next ∧ next.Stands tape rest marks := by
  obtain ⟨reader, moved, there, same⟩ := Reader.advance_stands stands.reader
  refine ⟨ctx.take (reader, []), by simp [Context.advance?, moved], there, ?_, ?_⟩
  · simp [Context.take, stands.silent]
  · exact same.trans stands.marks

/-- A failure is a match that went wrong if it blames a later place. -/
theorem progressed (stands : ctx.Stands tape start marks) {r : Report} {blamed : List Token}
    (located : r.location = tape.place blamed) (later : blamed <:+ start) :
    Parser.progressed ctx.reader.location r = decide (blamed ≠ start) := by
  simp only [Parser.progressed, located, stands.location]
  have suffix := stands.reader.suffix
  refine decide_eq_decide.mpr (not_congr ⟨fun same => ?_, fun same => by rw [same]⟩)
  exact Tape.place_injective (later.trans suffix) suffix same

theorem discard {mark : Bookmark} (stands : ctx.Stands tape rest (marks ++ [mark]))
    (fresh : mark ∉ marks) : (ctx.discard mark).Stands tape rest marks := by
  obtain ⟨reader, same⟩ := Reader.discard_stands stands.reader stands.marks fresh
  exact ⟨reader, stands.silent, same⟩

theorem rewind {mark : Bookmark} {next : Runner α} {back : List Token}
    (stands : ctx.Stands tape rest (marks ++ [mark]))
    (there : tape.tokens.drop mark.index = back) :
    ∃ earlier, ctx.rewind mark next = next earlier ∧
      earlier.Stands tape back (marks ++ [mark]) := by
  have live : mark ∈ ctx.reader.marks := by simp [stands.marks]
  obtain ⟨reader, returned, back, same⟩ := Reader.backtrack_stands stands.reader live there
  refine ⟨{ ctx with reader }, by simp [Context.rewind, returned], back, stands.silent, ?_⟩
  exact same.trans stands.marks

end Context.Stands

theorem Report.location_mostRelevant {a b : Report} (same : a.location = b.location) :
    (a.mostRelevant b).location = a.location := by
  simp only [mostRelevant]
  split
  · rfl
  · exact same.symm
  · rfl

namespace Parser

variable {Rule : Type → Type} {run second : Runner α} {judge other : Judge α}

theorem runToken_follows (kind : TokenKind) : Follows tape (runToken kind) (judgeToken kind) := by
  refine ⟨runToken_steady kind, judgeToken_shrinks kind, ?_⟩
  intro ctx start marks stands
  have current := stands.reader.current?
  cases start with
  | nil =>
    simp only [runToken, current, List.head?_nil, judgeToken]
    refine .fails ?_ stands
    exact congrArg Selection.start stands.reader.selection_nil
  | cons t rest =>
    simp only [runToken, current, List.head?_cons, judgeToken]
    split
    · obtain ⟨next, moved, there⟩ := stands.advance
      rw [moved]
      exact .reads there
    · exact .fails rfl stands

theorem runFinish_follows : Follows tape runFinish judgeFinish := by
  refine ⟨runFinish_steady, judgeFinish_shrinks, ?_⟩
  intro ctx start marks stands
  have current := stands.reader.current?
  cases start with
  | nil =>
    simp only [runFinish, current, List.head?_nil]
    exact .reads stands
  | cons t rest =>
    simp only [runFinish, current, List.head?_cons]
    exact .fails rfl stands

theorem rest_of_blamed (within : start <:+ rest ∧ rest <:+ start) : rest = start :=
  within.2.eq_of_length (Nat.le_antisymm within.2.length_le within.1.length_le)

theorem runOrElse_follows (here : Follows tape run judge) (there : Follows tape second other) :
    Follows tape (runOrElse run second) (judgeOrElse judge other) := by
  refine ⟨runOrElse_steady here.steady there.steady, judgeOrElse_shrinks here.shrinks there.shrinks,
    ?_⟩
  intro ctx start marks stands
  have first := here.meets stands
  have within := here.shrinks start
  simp only [runOrElse, judgeOrElse]
  generalize judge start = verdict, run ctx = result at first within ⊢
  cases first with
  | reads there => exact .reads there
  | @fails rest blamed r after located stands' =>
    simp only [stands.progressed located (within.1.trans within.2), decide_eq_true_eq]
    by_cases refused : blamed = start
    · subst refused
      obtain rfl := rest_of_blamed within
      have next := there.meets stands'
      have within' := there.shrinks rest
      simp only [ne_eq, not_true_eq_false, if_false, if_true]
      generalize other rest = verdict, second after = result at next within' ⊢
      cases next with
      | reads there => exact .reads there
      | fails located' there =>
        refine .fails ?_ there
        simp only [stands.progressed located' (within'.1.trans within'.2), decide_eq_true_eq]
        split
        · exact located'
        · rename_i same
          rw [Decidable.not_not.mp same] at located' ⊢
          rw [Report.location_mostRelevant (located.trans located'.symm), located]
      | reports loud =>
        refine .reports ?_
        obtain ⟨outcome, last⟩ := result
        cases outcome <;> exact loud
      | stuck => exact .stuck
    · simp only [ne_eq, refused, not_false_eq_true, if_true, if_false]
      exact .fails located stands'
  | reports loud =>
    refine .reports ?_
    obtain ⟨outcome, after⟩ := result
    cases outcome with
    | ok | stuck => exact loud
    | failed r =>
      dsimp only
      split
      · exact loud
      · have louder := there.steady.loud loud
        split
        · rename_i same
          rwa [same] at louder
        · exact louder
  | stuck => exact .stuck

end Parser
end Statecraft
