import Statecraft.Proofs.ContextChanges
import Statecraft.Proofs.ParserTotality

/-! What is reported while a text is parsed. Each change of the context keeps account of the
stray characters: they are reported or still to come, in their order. A text is always parsed
to its end, so all of them are reported, each once. -/
namespace Statecraft

namespace Context

def strayReports (reports : List Report) : List Report :=
  reports.filter fun r => r.kind = .invalidToken

/-- The stray characters are reported or still to come, in this order. -/
def Accounts (strays : List Stray) (ctx : Context) : Prop :=
  strayReports ctx.reports ++ ctx.reader.unseen.map strayReport = strays.map strayReport

/-- Failures of a parser, which never stand for stray characters or for tokens left over. -/
def Ordinary (kind : ReportKind) : Prop := kind ≠ .invalidToken ∧ kind ≠ .endOfInputExpected

variable {strays : List Stray} {ctx next : Context}

theorem strayReports_map (found : List Stray) :
    strayReports (found.map strayReport) = found.map strayReport := by
  simp [strayReports, strayReport, Report.invalidToken]

theorem strayReports_append (a b : List Report) :
    strayReports (a ++ b) = strayReports a ++ strayReports b := by
  simp [strayReports]

/-- Whatever the reader hands out is reported at once. -/
theorem Accounts.take (accounts : ctx.Accounts strays) {reader : Reader} {found : List Stray}
    (unseen : ctx.reader.unseen = found ++ reader.unseen) :
    (ctx.take (reader, found)).Accounts strays := by
  simp only [Accounts, Context.take, strayReports_append, strayReports_map] at accounts ⊢
  rw [← accounts, unseen, List.map_append, List.append_assoc]

theorem Accounts.record (accounts : ctx.Accounts strays) {r : Report}
    (other : r.kind ≠ .invalidToken) : (ctx.record r).Accounts strays := by
  simp only [Accounts, Context.record, strayReports_append] at accounts ⊢
  simpa [strayReports, other] using accounts

theorem Accounts.alter (accounts : ctx.Accounts strays) (alters : ctx.Alters Ordinary next) :
    next.Accounts strays := by
  cases alters with
  | advance moved =>
    simp only [advance?, Reader.advance?, Option.map_eq_some_iff] at moved
    obtain ⟨_, moved, rfl⟩ := moved
    split at moved <;> cases moved
    exact accounts.take (Reader.fill_unseen { ctx.reader with cursor := ctx.reader.cursor + 1 })
  | record known => exact accounts.record known.1
  | bookmark => exact accounts
  | rewind back =>
    simp only [Reader.backtrack] at back
    split at back
    · cases back
    · split at back <;> cases back
      exact accounts
  | @discard mark =>
    have same : (ctx.reader.discard mark).unseen = ctx.reader.unseen := by
      simp only [Reader.discard]
      split <;> rfl
    simpa only [Accounts, Context.discard, same] using accounts

theorem Accounts.become (accounts : ctx.Accounts strays) (becomes : ctx.Becomes Ordinary next) :
    next.Accounts strays := by
  induction becomes with
  | refl => exact accounts
  | tail _ alters ih => exact ih.alter alters

/-- Tokens left over are never what is recorded. -/
theorem Becomes.ordinary (becomes : ctx.Becomes Ordinary next)
    (before : ∀ r ∈ ctx.reports, r.kind ≠ .endOfInputExpected) :
    ∀ r ∈ next.reports, r.kind ≠ .endOfInputExpected := by
  induction becomes with
  | refl => exact before
  | tail _ alters ih =>
    cases alters with
    | advance moved =>
      obtain ⟨found, -, rfl⟩ := Option.map_eq_some_iff.mp moved
      simp only [Context.take, List.mem_append, List.mem_map]
      rintro r (old | ⟨s, -, rfl⟩)
      · exact ih r old
      · nofun
    | record known =>
      simp only [Context.record, List.mem_append, List.mem_singleton]
      rintro r (old | rfl)
      · exact ih r old
      · exact known.2
    | bookmark | rewind | discard => exact ih

/-- A new reader has handed out the strays before its first token. -/
theorem start_accounts (lexemes : List Lexeme) :
    (start lexemes).Accounts (lexemes.filterMap Lexeme.stray?) := by
  let empty : Context := ⟨⟨0, lexemes, .first, [], 0, 0, [], 0⟩, []⟩
  have accounts : empty.Accounts (lexemes.filterMap Lexeme.stray?) := rfl
  exact accounts.take (Reader.fill_unseen empty.reader)

end Context

namespace Reader

variable {tape : Tape} {r : Reader}

theorem advanceMany_unseen (n : Nat) (r : Reader) :
    r.unseen = (advanceMany n r).2.2 ++ (advanceMany n r).2.1.unseen := by
  induction n generalizing r with
  | zero => rfl
  | succ n ih =>
    simp only [advanceMany, advance?]
    split
    · rfl
    · rename_i next strays moved
      split at moved <;> cases moved
      rw [List.append_assoc, ← ih]
      exact fill_unseen { r with cursor := r.cursor + 1 }

theorem advanceMany_keeps (keeps : r.Keeps tape) (n : Nat) :
    (advanceMany n r).2.1.Keeps tape := by
  induction n generalizing r with
  | zero => exact keeps
  | succ n ih =>
    rcases Nat.lt_or_ge r.cursor tape.tokens.length with more | ended
    · obtain ⟨next, strays, moved, there, -⟩ := keeps.advance more
      simp only [advanceMany, moved]
      exact ih there
    · simpa only [advanceMany, keeps.advance_end ended] using keeps

theorem Keeps.unseen_at_end (keeps : r.Keeps tape) (ended : r.atEnd = true) : r.unseen = [] := by
  simp only [Reader.atEnd, decide_eq_true_eq] at ended
  obtain ⟨-, inside | ⟨-, none⟩⟩ := keeps.covers
  · exact absurd inside (Nat.not_lt.mpr ended)
  · simp [unseen, none]

end Reader

theorem Context.Accounts.at_end {strays : List Stray} {ctx : Context} {tape : Tape}
    (accounts : ctx.Accounts strays) (keeps : ctx.reader.Keeps tape)
    (ended : ctx.reader.atEnd = true) :
    strayReports ctx.reports = strays.map strayReport := by
  simpa [Accounts, keeps.unseen_at_end ended] using accounts

/-- The context that a parse leaves when its parser succeeded: tokens that are left over are
reported and read. -/
def Grammar.concluded (ctx : Context) : Context :=
  match ctx.reader.current? with
  | none => ctx
  | some t => (ctx.record (Parser.trailing t)).drain

namespace Source

/-- The parser makes the reading out of the source, and leaves the context. It does not fail;
then the reader is brought to the end, and the stray characters are reported, each once and in
their order. -/
structure Exhausts {α : Type} (source : String) (p : Parser Rule α) (reading : Reading α)
    (after : Context) : Prop where
  succeeds : Grammar.rules.run (Grammar.fuel (Lexeme.scan source)) p (.start (Lexeme.scan source)) =
    (.ok reading.value, after)
  reported : reading.reports = (Grammar.concluded after).reports
  ended : (Grammar.concluded after).reader.atEnd = true
  strays : Context.strayReports reading.reports =
    ((Lexeme.scan source).filterMap Lexeme.stray?).map Context.strayReport

namespace Grammar

open Statecraft.Context (Ordinary Accounts)

theorem expression_known : expression.Blames Ordinary ∧ expression.Records Ordinary := by
  simp [expression, conjunction, negation, relation, term, factor, sign, level, signed, primary,
    parenthesized, literal, Parser.anyToken, Parser.oneOf, Parser.optional, Parser.recoverAs,
    Parser.andThen, Parser.as, Parser.map, Parser.Blames, Parser.Records, Ordinary]

theorem block_known : block.Blames Ordinary ∧ block.Records Ordinary := by
  simp [block, recoveredAction, resyncAction, action, transition, conditional, assertion,
    assignment, assigned, condition, statementValue, terminator, name, Parser.oneOf,
    Parser.optional, Parser.followedBy, Parser.andThen, Parser.as, Parser.map, Parser.Blames,
    Parser.Records, Ordinary]

theorem rules_known {γ : Type} (rule : Rule γ) :
    (rules rule).Blames Ordinary ∧ (rules rule).Records Ordinary := by
  cases rule with
  | expression => exact expression_known
  | block => exact block_known

/-- Skipping a broken definition ends in no failure that could be recorded. -/
theorem program_records : program.Records Ordinary := by
  simp [program, recoveredDefinition, resyncDefinition, definition, stateList, stateEntry,
    annotated, declaration, whenBlock, assigned, statementValue, terminator, name,
    Parser.anyToken, Parser.oneOf, Parser.between, Parser.followedBy, Parser.andThen, Parser.as,
    Parser.map, Parser.Blames, Parser.Records, Ordinary]

variable {source : String} {α : Type} {p : Parser Rule α}

/-- A parser that cannot fail yields a value, with all strays reported or still to come. -/
theorem run_succeeds (terminates : rules.Terminates (fuel (Lexeme.scan source)) p source)
    (firm : ∀ {r after}, rules.run (fuel (Lexeme.scan source)) p (.start (Lexeme.scan source)) ≠
      (.failed r, after)) (records : p.Records Ordinary) :
    ∃ value after, rules.run (fuel (Lexeme.scan source)) p (.start (Lexeme.scan source)) =
        (.ok value, after) ∧ after.On (.ofSource source) [] ∧
      (Context.start (Lexeme.scan source)).Becomes Ordinary after := by
  have returns := terminates.returns
  rcases ran : rules.run (fuel (Lexeme.scan source)) p (.start (Lexeme.scan source)) with
    ⟨value | r | cause, after⟩
  · refine ⟨value, after, rfl, ?_, ?_⟩
    · exact (Parser.on_of_run (rules.runRule_commits _ _) (Context.start_on source) ran).1
    · exact Parser.runWith_orderly (Statecraft.Grammar.runRule_orderly rules_known _ _) _ p records
        ran
  · exact absurd ran firm
  · rw [ran] at returns
    exact returns.elim

theorem concluded_accounts {after : Context} {strays : List Stray}
    (on : after.On (.ofSource source) []) (accounts : after.Accounts strays) :
    (Statecraft.Grammar.concluded after).reader.atEnd = true ∧
      Context.strayReports (Statecraft.Grammar.concluded after).reports =
        strays.map Context.strayReport := by
  simp only [Statecraft.Grammar.concluded]
  cases found : after.reader.current? with
  | none =>
    have current := on.keeps.current?
    rw [found] at current
    have ended := on.keeps.atEnd.mpr (List.getElem?_eq_none_iff.mp current.symm)
    exact ⟨ended, accounts.at_end on.keeps ended⟩
  | some t =>
    have recorded : (after.record (Parser.trailing t)).Accounts strays := accounts.record nofun
    have drained := recorded.take (Reader.advanceMany_unseen
      (after.reader.window.length + after.reader.pending.length) after.reader)
    have ended : after.reader.drain.1.atEnd = true := on.keeps.drain
    exact ⟨ended, drained.at_end (Reader.advanceMany_keeps on.keeps _) ended⟩

theorem parse_succeeds {after : Context} {value : α}
    (ran : rules.run (fuel (Lexeme.scan source)) p (.start (Lexeme.scan source)) =
      (.ok value, after)) :
    rules.parse (fuel (Lexeme.scan source)) p (Lexeme.scan source) =
      ⟨some value, (Statecraft.Grammar.concluded after).reports⟩ := by
  simp only [Statecraft.Grammar.parse, ran, Statecraft.Grammar.concluded]
  cases after.reader.current? <;> rfl

end Grammar

/-- Every text is read to its end, as a program and as an expression. Neither parser fails, and
the stray characters are reported, each once and in their order. A program leaves no token over,
and so none is reported to be left over. -/
theorem reading_exhausts (source : String) :
    (∃ after, Exhausts source Grammar.program (parse source) after ∧ after.reader.atEnd = true ∧
        ∀ r ∈ (parse source).reports, r.kind ≠ .endOfInputExpected) ∧
      ∃ after, Exhausts source (.call Rule.expression) (parseExpression source) after := by
  let fuel := Grammar.fuel (Lexeme.scan source)
  have enough : (significantTokens source).length < fuel := Nat.lt_succ_self _
  have progressive := Grammar.rules_progressive fuel (.ofSource source)
  have accounts := Context.start_accounts (Lexeme.scan source)
  constructor
  · have firm (after : Context) :
        (∀ r, Grammar.rules.run fuel Grammar.program (.start (Lexeme.scan source)) ≠
            (.failed r, after)) ∧
          ∀ value, Grammar.rules.run fuel Grammar.program (.start (Lexeme.scan source)) =
            (.ok value, after) → after.reader.atEnd = true :=
      Grammar.program_firm (Grammar.rules.runRule_commits fuel fuel) (Context.start_on source) after
    obtain ⟨definitions, after, ran, on, becomes⟩ := Grammar.run_succeeds
      (progressive.terminates enough (Grammar.program_brisk (Grammar.rules.runRule_commits _ _)))
      ((firm _).1 _) Grammar.program_records
    obtain ⟨ended, strays⟩ := Grammar.concluded_accounts on (accounts.become becomes)
    have parsed := Grammar.parse_succeeds ran
    have atEnd := (firm after).2 _ ran
    -- At the end there is no token that could be reported as left over.
    have none : Statecraft.Grammar.concluded after = after := by
      have current := on.keeps.current?
      rw [List.getElem?_eq_none (on.keeps.atEnd.mp atEnd)] at current
      simp only [Statecraft.Grammar.concluded, current]
    refine ⟨after, ?_, atEnd, ?_⟩
    · simp only [parse, parsed, Option.getD_some]
      exact ⟨ran, rfl, ended, strays⟩
    · simp only [parse, parsed, none]
      refine becomes.ordinary ?_
      simp [Context.start, Context.strayReport, Report.invalidToken]
  · obtain ⟨e, after, ran, on, becomes⟩ := Grammar.run_succeeds (p := .call Rule.expression)
      (progressive.terminates enough trivial)
      (Grammar.runRule_expression_firm _ _ _ (Context.start_on source) rfl) trivial
    obtain ⟨ended, strays⟩ := Grammar.concluded_accounts on (accounts.become becomes)
    have parsed := Grammar.parse_succeeds ran
    refine ⟨after, ?_⟩
    simp only [parseExpression, parsed, Option.getD_some]
    exact ⟨ran, rfl, ended, strays⟩

end Source
end Statecraft
