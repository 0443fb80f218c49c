import Statecraft.Proofs.LoopVerdicts

/-! Parsers of a grammar go as the verdicts say. The rules may be nested as deep for the run as for
the verdict, so what a source is read as can be told from its tokens. -/
namespace Statecraft

variable {tape : Tape} {ctx : Context} {start : List Token} {marks : List Bookmark} {α β : Type}

namespace Parser

variable {Rule : Type → Type} {run : Runner α} {judge other : Judge α}

/-- Under a new bookmark a run goes as before. What remains is how the bookmark is used
at the end, before it is released. -/
theorem marked_follows {finish : Bookmark → Outcome α → Runner α} (body : Follows tape run judge)
    (shrinks : other.Shrinks) (later : ∀ mark outcome, Steady (fun _ => True) (finish mark outcome))
    (finishes : ∀ {start marks mark outcome after},
      tape.tokens.drop mark.index = start → Meets tape (marks ++ [mark]) (judge start) (outcome, after) →
        Meets tape (marks ++ [mark]) (other start) (finish mark outcome after)) :
    Follows tape (marked run finish) other := by
  refine ⟨marked_steady body.steady later, shrinks, ?_⟩
  intro ctx start marks stands
  obtain ⟨reader, last, fresh, there⟩ := Reader.bookmark_stands stands.reader
  rw [stands.marks] at last fresh
  have marked : Context.Stands tape { ctx with reader := ctx.reader.bookmark.2 } start
      (marks ++ [ctx.reader.bookmark.1]) := ⟨reader, stands.silent, last⟩
  have second := finishes there (body.meets marked)
  simp only [Parser.marked]
  generalize other start = verdict, finish ctx.reader.bookmark.1 _ _ = result at second ⊢
  cases second with
  | reads there => exact .reads (there.discard fresh)
  | fails located there => exact .fails located (there.discard fresh)
  | reports loud => exact .reports loud
  | stuck => exact .stuck

section Combinators

variable {rules : ∀ {γ : Type}, Rule γ → Runner γ} {judges : ∀ {γ : Type}, Rule γ → Judge γ}
  {loops : Nat} {body fallback : Parser Rule α}

theorem bind_meets {next : α → Parser Rule β}
    (first : Follows tape (body.runWith rules loops) (body.judgeWith judges loops))
    (second : ∀ value,
      Follows tape ((next value).runWith rules loops) ((next value).judgeWith judges loops))
    (stands : ctx.Stands tape start marks) :
    Meets tape marks ((body.bind next).judgeWith judges loops start)
      ((body.bind next).runWith rules loops ctx) := by
  have here := first.meets stands
  simp only [runWith, judgeWith]
  generalize body.judgeWith judges loops start = verdict, body.runWith rules loops ctx = result
    at here ⊢
  cases here with
  | reads there => exact (second _).meets there
  | fails located there => exact .fails located there
  | reports loud =>
    refine .reports ?_
    obtain ⟨outcome, after⟩ := result
    cases outcome with
    | ok value => exact (second value).steady.loud loud
    | failed | stuck => exact loud
  | stuck => exact .stuck

theorem withKind_meets (kind : ReportKind)
    (follows : Follows tape (body.runWith rules loops) (body.judgeWith judges loops))
    (stands : ctx.Stands tape start marks) :
    Meets tape marks ((body.withKind kind).judgeWith judges loops start)
      ((body.withKind kind).runWith rules loops ctx) := by
  have here := follows.meets stands
  simp only [runWith, judgeWith]
  generalize body.judgeWith judges loops start = verdict, body.runWith rules loops ctx = result
    at here ⊢
  cases here with
  | reads there => exact .reads there
  | fails located there => exact .fails located there
  | reports loud =>
    refine .reports ?_
    obtain ⟨outcome, after⟩ := result
    cases outcome <;> exact loud
  | stuck => exact .stuck

theorem recover_meets
    (first : Follows tape (body.runWith rules loops) (body.judgeWith judges loops))
    (second : Follows tape (fallback.runWith rules loops) (fallback.judgeWith judges loops))
    (stands : ctx.Stands tape start marks) :
    Meets tape marks ((body.recover fallback).judgeWith judges loops start)
      ((body.recover fallback).runWith rules loops ctx) := by
  have here := first.meets stands
  simp only [runWith, judgeWith, judgeRecover]
  generalize body.judgeWith judges loops start = verdict, body.runWith rules loops ctx = result
    at here ⊢
  cases here with
  | reads there => exact .reads there
  | fails located there => exact .reports (second.steady.loud (by simp [Context.record]))
  | reports loud =>
    refine .reports ?_
    obtain ⟨outcome, after⟩ := result
    cases outcome with
    | failed r => exact second.steady.loud (by simp [Context.record])
    | ok | stuck => exact loud
  | stuck => exact .stuck

theorem attempt_follows
    (follows : Follows tape (body.runWith rules loops) (body.judgeWith judges loops))
    (shrinks : (body.attempt.judgeWith judges loops).Shrinks) :
    Follows tape (body.attempt.runWith rules loops) (body.attempt.judgeWith judges loops) := by
  refine marked_follows follows shrinks ?_ ?_
  · intro mark outcome ctx
    cases outcome with
    | failed r => exact .rewind ctx mark .refl
    | ok | stuck => exact .refl ctx
  · intro start marks mark outcome after there meets
    simp only [judgeWith, judgeAttempt]
    generalize body.judgeWith judges loops start = verdict at meets ⊢
    cases meets with
    | reads there => exact .reads there
    | fails located stands =>
      obtain ⟨earlier, same, back⟩ := stands.rewind there
      dsimp only
      rw [same]
      exact .fails located back
    | reports loud =>
      refine .reports ?_
      cases outcome with
      | failed r => exact (Context.Extends.rewind after mark .refl).loud loud
      | ok | stuck => exact loud
    | stuck => exact .stuck

theorem lookahead_follows
    (follows : Follows tape (body.runWith rules loops) (body.judgeWith judges loops))
    (shrinks : (body.lookahead.judgeWith judges loops).Shrinks) :
    Follows tape (body.lookahead.runWith rules loops) (body.lookahead.judgeWith judges loops) := by
  refine marked_follows follows shrinks ?_ ?_
  · intro mark outcome ctx
    refine .rewind ctx mark fun ctx => ?_
    cases outcome <;> exact .refl ctx
  · intro start marks mark outcome after there meets
    simp only [judgeWith, judgeLookahead]
    generalize body.judgeWith judges loops start = verdict at meets ⊢
    cases meets with
    | reads stands =>
      obtain ⟨earlier, same, back⟩ := stands.rewind there
      rw [same]
      exact .reads back
    | fails located stands =>
      obtain ⟨earlier, same, back⟩ := stands.rewind there
      rw [same]
      exact .fails back.location back
    | reports loud =>
      refine .reports ((Context.Extends.rewind after mark fun ctx => ?_).loud loud)
      cases outcome <;> exact .refl ctx
    | stuck => exact .stuck

theorem chain_meets {operator : Parser Rule β} (combine : α → β → α → α)
    (term : Follows tape (body.runWith rules loops) (body.judgeWith judges loops))
    (between : Follows tape (operator.runWith rules loops) (operator.judgeWith judges loops))
    (stands : ctx.Stands tape start marks) :
    Meets tape marks ((body.chain operator combine).judgeWith judges loops start)
      ((body.chain operator combine).runWith rules loops ctx) := by
  have here := term.meets stands
  have again := runChain_follows combine term between loops
  simp only [runWith, judgeWith]
  generalize body.judgeWith judges loops start = verdict, body.runWith rules loops ctx = result
    at here ⊢
  cases here with
  | reads there => exact (again _).meets there
  | fails located there => exact .fails located there
  | reports loud =>
    refine .reports ?_
    obtain ⟨outcome, after⟩ := result
    cases outcome with
    | ok value => exact (again value).steady.loud loud
    | failed | stuck => exact loud
  | stuck => exact .stuck

end Combinators

/-- A run goes as the verdict on its parser says, if those of the rules do. -/
theorem runWith_follows {rules : ∀ {γ : Type}, Rule γ → Runner γ}
    {judges : ∀ {γ : Type}, Rule γ → Judge γ}
    (follows : ∀ {γ : Type} (rule : Rule γ), Follows tape (rules rule) (judges rule)) (loops : Nat)
    (p : Parser Rule α) : Follows tape (p.runWith rules loops) (p.judgeWith judges loops) := by
  have steady {α : Type} (p : Parser Rule α) : Steady (fun _ => True) (p.runWith rules loops) :=
    runWith_steady (fun rule => (follows rule).steady) loops p
  have shrinks {α : Type} (p : Parser Rule α) : (p.judgeWith judges loops).Shrinks :=
    judgeWith_shrinks (fun rule => (follows rule).shrinks) loops p
  induction p with
  | token kind => exact runToken_follows kind
  | succeed value => exact ⟨steady (.succeed value), shrinks (.succeed value), .reads⟩
  | fail kind =>
    exact ⟨steady (.fail kind), shrinks (.fail kind), fun stands => .fails stands.location stands⟩
  | finish => exact runFinish_follows
  | bind first next ihf ihn =>
    exact ⟨steady (.bind first next), shrinks (.bind first next), bind_meets ihf ihn⟩
  | orElse first second ihf ihs => exact runOrElse_follows ihf ihs
  | withKind body kind ih =>
    exact ⟨steady (.withKind body kind), shrinks (.withKind body kind), withKind_meets kind ih⟩
  | recover body fallback ihb ihf =>
    exact ⟨steady (.recover body fallback), shrinks (.recover body fallback),
      recover_meets ihb ihf⟩
  | attempt body ih => exact attempt_follows ih (shrinks (.attempt body))
  | lookahead body ih => exact lookahead_follows ih (shrinks (.lookahead body))
  | skipUntil body ih => exact runSkipUntil_follows ih loops
  | many body ih => exact runMany_follows ih loops
  | manyUntil body stop ihb ihs => exact runManyUntil_follows ihb ihs loops
  | separated body delimiter ihb ihd => exact runSeparated_follows ihb ihd loops
  | chain term operator combine iht iho =>
    exact ⟨steady (.chain term operator combine), shrinks (.chain term operator combine),
      chain_meets combine iht iho⟩
  | call rule => exact follows rule

end Parser

namespace Grammar

variable {Rule : Type → Type} (grammar : Grammar Rule)

theorem runRule_follows (loops depth : Nat) (rule : Rule α) :
    Follows tape (grammar.runRule loops depth rule) (grammar.judgeRule loops depth rule) := by
  induction depth generalizing α with
  | zero =>
    exact ⟨fun _ => .refl _, grammar.judgeRule_shrinks loops 0 rule, fun _ => .stuck⟩
  | succ depth ih => exact Parser.runWith_follows ih loops (grammar rule)

def judge (fuel : Nat) (p : Parser Rule α) : Judge α :=
  p.judgeWith (fun r => judgeRule grammar fuel fuel r) fuel

/-- Nothing is reported about a source if and only if all of its tokens are read. -/
theorem parse_judged {source : String} (clean : ∀ x ∈ Lexeme.scan source, x.stray? = none)
    {fuel : Nat} {p : Parser Rule α}
    (settled : grammar.judge fuel p (significantTokens source) ≠ .stuck) :
    ((grammar.parse fuel p (Lexeme.scan source)).reports = [] →
        ∃ value, grammar.judge fuel p (significantTokens source) = .reads value []) ∧
      ∀ value, grammar.judge fuel p (significantTokens source) = .reads value [] →
        grammar.parse fuel p (Lexeme.scan source) = ⟨some value, []⟩ := by
  obtain ⟨strays, stands⟩ := Reader.start_stands 0 clean
  have starts : (Context.start (Lexeme.scan source)).Stands (.ofSource source)
      (significantTokens source) (Context.start (Lexeme.scan source)).reader.marks :=
    ⟨stands, by simp [Context.start, strays], rfl⟩
  have meets := (Parser.runWith_follows (grammar.runRule_follows fuel fuel) fuel p).meets starts
  simp only [parse, run, judge] at settled ⊢
  generalize p.judgeWith _ fuel (significantTokens source) = verdict,
    p.runWith _ fuel (Context.start (Lexeme.scan source)) = result at meets settled ⊢
  cases meets with
  | @reads read rest after there =>
    simp only [there.reader.current?, Verdict.reads.injEq]
    cases rest with
    | nil => simp [there.silent]
    | cons t rest => simp [Context.drain, Context.take, Context.record]
  | fails located there => simp [Context.record]
  | reports loud =>
    obtain ⟨outcome, after⟩ := result
    cases outcome with
    | ok read =>
      dsimp only
      split
      · simpa using fun silent => absurd silent loud
      · simp [Context.drain, Context.take, Context.record]
    | failed => simp [Context.record]
    | stuck => simpa using loud
  | stuck => exact absurd rfl settled

end Grammar
end Statecraft
