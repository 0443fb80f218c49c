import Statecraft.Proofs.Commitment

/-! A run depends on the tape ahead and on nothing else. Two contexts that stand at one token of a
tape may differ in what they have buffered, in their bookmarks and in their reports. A parser has
the same outcome in both, and leaves both at one token again. -/
namespace Statecraft

variable {tape : Tape} {marks others : List Bookmark} {a b : Context} {α β : Type}

/-- Both contexts stand at one token of the tape. -/
structure Context.Abreast (tape : Tape) (marks others : List Bookmark) (a b : Context) : Prop where
  here : a.On tape marks
  there : b.On tape others
  same : a.reader.cursor = b.reader.cursor

/-- Both runs have one outcome and stand at one token. -/
inductive Concurs (tape : Tape) (marks others : List Bookmark) :
    Outcome α × Context → Outcome α × Context → Prop where
  | both {outcome : Outcome α} {a b : Context} (abreast : a.Abreast tape marks others b) :
      Concurs tape marks others (outcome, a) (outcome, b)

/-- The runner depends on the tape ahead and on nothing else. -/
def Local (tape : Tape) (run : Runner α) : Prop :=
  ∀ {marks others : List Bookmark} {a b : Context}, a.Abreast tape marks others b →
    Concurs tape marks others (run a) (run b)

namespace Context.Abreast

variable (abreast : a.Abreast tape marks others b)
include abreast

theorem current? : a.reader.current? = b.reader.current? := by
  rw [abreast.here.keeps.current?, abreast.there.keeps.current?, abreast.same]

theorem selection : a.reader.selection = b.reader.selection := by
  simp only [Reader.selection, abreast.current?]
  cases found : b.reader.current? with
  | some t => rfl
  | none =>
    have ended : tape.tokens.length ≤ b.reader.cursor := by
      rwa [abreast.there.keeps.current?, List.getElem?_eq_none_iff] at found
    dsimp only
    rw [abreast.here.keeps.frontier abreast.here.keeps.covers (abreast.same ▸ ended),
      abreast.there.keeps.frontier abreast.there.keeps.covers ended]

theorem location : a.reader.location = b.reader.location :=
  congrArg Selection.start abreast.selection

theorem atEnd : a.reader.atEnd = b.reader.atEnd := by
  rw [Bool.eq_iff_iff, abreast.here.keeps.atEnd, abreast.there.keeps.atEnd, abreast.same]

theorem endsList (start : Location) (r : Report) :
    Parser.endsList start r a = Parser.endsList start r b := by
  rw [Parser.endsList, Parser.endsList, abreast.atEnd]

theorem record (r : Report) : (a.record r).Abreast tape marks others (b.record r) :=
  ⟨abreast.here.record r, abreast.there.record r, abreast.same⟩

/-- Both move to the next token, or neither does. -/
theorem advance : (∃ next last, a.advance? = some next ∧ b.advance? = some last ∧
      next.Abreast tape marks others last ∧ next.reader.cursor = a.reader.cursor + 1) ∨
    a.advance? = none ∧ b.advance? = none := by
  rcases Nat.lt_or_ge a.reader.cursor tape.tokens.length with more | ended
  · obtain ⟨next, moved, here, cursor⟩ := abreast.here.advance more
    obtain ⟨last, moved', there, cursor'⟩ := abreast.there.advance (abreast.same ▸ more)
    exact .inl ⟨next, last, moved, moved', ⟨here, there, by rw [cursor, cursor', abreast.same]⟩,
      cursor⟩
  · right
    constructor
    · simp only [Context.advance?, abreast.here.keeps.advance_end ended, Option.map_none]
    · simp only [Context.advance?, abreast.there.keeps.advance_end (abreast.same ▸ ended),
        Option.map_none]

theorem bookmark : Abreast tape (marks ++ [a.reader.bookmark.1]) (others ++ [b.reader.bookmark.1])
    { a with reader := a.reader.bookmark.2 } { b with reader := b.reader.bookmark.2 } :=
  ⟨abreast.here.bookmark.1, abreast.there.bookmark.1, abreast.same⟩

end Context.Abreast

theorem Context.Abreast.discard {mark other : Bookmark}
    (abreast : a.Abreast tape (marks ++ [mark]) (others ++ [other]) b) (fresh : mark ∉ marks)
    (fresh' : other ∉ others) : (a.discard mark).Abreast tape marks others (b.discard other) := by
  obtain ⟨here, cursor⟩ := abreast.here.discard fresh
  obtain ⟨there, cursor'⟩ := abreast.there.discard fresh'
  exact ⟨here, there, by rw [cursor, cursor', abreast.same]⟩

/-- Both return to bookmarks at one token. -/
theorem Context.Abreast.rewind {mark other : Bookmark} {next next' : Runner α}
    (abreast : a.Abreast tape (marks ++ [mark]) (others ++ [other]) b)
    (level : mark.index = other.index) (inside : mark.index ≤ tape.tokens.length)
    (concur : ∀ {a b : Context}, a.Abreast tape (marks ++ [mark]) (others ++ [other]) b →
      Concurs tape (marks ++ [mark]) (others ++ [other]) (next a) (next' b)) :
    Concurs tape (marks ++ [mark]) (others ++ [other]) (a.rewind mark next)
      (b.rewind other next') := by
  have returns : ∃ earlier, a.rewind mark next = next earlier ∧
      earlier.On tape (marks ++ [mark]) ∧ earlier.reader.cursor = mark.index :=
    abreast.here.rewind inside
  have returns' : ∃ earlier, b.rewind other next' = next' earlier ∧
      earlier.On tape (others ++ [other]) ∧ earlier.reader.cursor = other.index :=
    abreast.there.rewind (level ▸ inside)
  obtain ⟨earlier, same, here, cursor⟩ := returns
  obtain ⟨before, same', there, cursor'⟩ := returns'
  rw [same, same']
  exact concur ⟨here, there, by rw [cursor, cursor', level]⟩

namespace Parser

variable {Rule : Type → Type} {run second : Runner α}

theorem runToken_local (kind : TokenKind) : Local tape (runToken kind) := by
  intro marks others a b abreast
  simp only [runToken, abreast.current?, abreast.selection]
  split
  · exact .both abreast
  · split
    · obtain ⟨next, last, moved, moved', ahead, -⟩ | ⟨moved, moved'⟩ := abreast.advance
      · rw [moved, moved']
        exact .both ahead
      · rw [moved, moved']
        exact .both abreast
    · exact .both abreast

theorem runFinish_local : Local tape runFinish := by
  intro marks others a b abreast
  simp only [runFinish, abreast.current?]
  split <;> exact .both abreast

theorem runOrElse_local (first : Local tape run) (later : Local tape second) :
    Local tape (runOrElse run second) := by
  intro marks others a b abreast
  have here := first abreast
  simp only [runOrElse, abreast.location]
  generalize run a = result, run b = result' at here
  obtain @⟨outcome, a', b', behind⟩ := here
  cases outcome with
  | ok | stuck => exact .both behind
  | failed r =>
    dsimp only
    split
    · exact .both behind
    · have next := later behind
      generalize second a' = result, second b' = result' at next
      obtain @⟨outcome, a'', b'', last⟩ := next
      cases outcome <;> exact .both last

theorem runSkipUntil_local (body : Local tape run) (fuel : Nat) :
    Local tape (runSkipUntil run fuel) := by
  induction fuel with
  | zero => exact fun abreast => .both abreast
  | succ fuel ih =>
    intro marks others a b abreast
    have first := body abreast
    simp only [runSkipUntil]
    generalize run a = result, run b = result' at first
    obtain @⟨outcome, a', b', behind⟩ := first
    cases outcome with
    | ok | stuck => exact .both behind
    | failed r =>
      obtain ⟨next, last, moved, moved', ahead, -⟩ | ⟨moved, moved'⟩ := behind.advance
      · simp only [moved, moved']
        exact ih ahead
      · simp only [moved, moved']
        exact .both behind

theorem prepend_concurs (value : α) {result result' : Outcome (List α) × Context}
    (concurs : Concurs tape marks others result result') :
    Concurs tape marks others (prepend value result) (prepend value result') := by
  obtain ⟨abreast⟩ := concurs
  exact .both abreast

theorem runMany_local (body : Local tape run) (fuel : Nat) : Local tape (runMany run fuel) := by
  induction fuel with
  | zero => exact fun abreast => .both abreast
  | succ fuel ih =>
    intro marks others a b abreast
    have first := body abreast
    simp only [runMany, abreast.atEnd, abreast.location]
    split
    · exact .both abreast
    · generalize run a = result, run b = result' at first
      obtain @⟨outcome, a', b', behind⟩ := first
      cases outcome with
      | ok value => exact prepend_concurs value (ih behind)
      | stuck => exact .both behind
      | failed r =>
        dsimp only
        split <;> exact .both behind

theorem runManyUntil_local {stop : Runner β} (body : Local tape run) (stops : Local tape stop)
    (fuel : Nat) : Local tape (runManyUntil run stop fuel) := by
  induction fuel with
  | zero => exact fun abreast => .both abreast
  | succ fuel ih =>
    intro marks others a b abreast
    have first := stops abreast
    simp only [runManyUntil, abreast.location]
    generalize stop a = result, stop b = result' at first
    obtain @⟨outcome, a', b', behind⟩ := first
    cases outcome with
    | ok | stuck => exact .both behind
    | failed missing =>
      simp only [behind.atEnd]
      split
      · exact .both behind
      · have next := body behind
        generalize run a' = result, run b' = result' at next
        obtain @⟨outcome, a'', b'', last⟩ := next
        cases outcome with
        | ok value => exact prepend_concurs value (ih last)
        | stuck | failed => exact .both last

theorem runSeparated_local {delimiter : Runner β} (body : Local tape run)
    (between : Local tape delimiter) (fuel : Nat) :
    Local tape (runSeparated run delimiter fuel) := by
  induction fuel with
  | zero => exact fun abreast => .both abreast
  | succ fuel ih =>
    intro marks others a b abreast
    have first := body abreast
    simp only [runSeparated, abreast.location]
    generalize run a = result, run b = result' at first
    obtain @⟨outcome, a', b', behind⟩ := first
    cases outcome with
    | stuck => exact .both behind
    | failed r =>
      simp only [behind.endsList]
      split <;> exact .both behind
    | ok value =>
      have next := between behind
      simp only [behind.location]
      generalize delimiter a' = result, delimiter b' = result' at next
      obtain @⟨outcome, a'', b'', last⟩ := next
      cases outcome with
      | ok => exact prepend_concurs value (ih last)
      | stuck => exact .both last
      | failed r =>
        simp only [last.endsList]
        split <;> exact .both last

theorem runChain_local {operator : Runner β} (combine : α → β → α → α) (term : Local tape run)
    (between : Local tape operator) (fuel : Nat) (left : α) :
    Local tape (runChain run operator combine fuel left) := by
  induction fuel generalizing left with
  | zero => exact fun abreast => .both abreast
  | succ fuel ih =>
    intro marks others a b abreast
    have first := between abreast
    simp only [runChain, abreast.location]
    generalize operator a = result, operator b = result' at first
    obtain @⟨outcome, a', b', behind⟩ := first
    cases outcome with
    | stuck => exact .both behind
    | failed r =>
      dsimp only
      split <;> exact .both behind
    | ok op =>
      have next := term behind
      dsimp only
      generalize run a' = result, run b' = result' at next
      obtain @⟨outcome, a'', b'', last⟩ := next
      cases outcome with
      | ok right => exact ih _ last
      | failed | stuck => exact .both last

/-- Runs under new bookmarks agree, if what is done with the bookmarks at the end does. -/
theorem marked_local {finish : Bookmark → Outcome α → Runner α} (body : Local tape run)
    (finishes : ∀ {mark other outcome a b marks others}, mark.index = other.index →
      mark.index ≤ tape.tokens.length →
      Context.Abreast tape (marks ++ [mark]) (others ++ [other]) a b →
        Concurs tape (marks ++ [mark]) (others ++ [other]) (finish mark outcome a)
          (finish other outcome b)) :
    Local tape (marked run finish) := by
  intro marks others a b abreast
  have runs := body abreast.bookmark
  simp only [marked]
  generalize run { a with reader := a.reader.bookmark.2 } = result,
    run { b with reader := b.reader.bookmark.2 } = result' at runs
  obtain @⟨outcome, a', b', behind⟩ := runs
  have closes := @finishes _ _ outcome _ _ _ _ abreast.same abreast.here.inside behind
  dsimp only
  generalize finish a.reader.bookmark.1 outcome a' = result,
    finish b.reader.bookmark.1 outcome b' = result' at closes
  obtain ⟨last⟩ := closes
  exact .both (last.discard abreast.here.bookmark.2 abreast.there.bookmark.2)

section Combinators

variable {rules : ∀ {γ : Type}, Rule γ → Runner γ} {loops : Nat} {body fallback : Parser Rule α}

theorem bind_local {next : α → Parser Rule β} (first : Local tape (body.runWith rules loops))
    (later : ∀ value, Local tape ((next value).runWith rules loops)) :
    Local tape ((body.bind next).runWith rules loops) := by
  intro marks others a b abreast
  have here := first abreast
  simp only [runWith]
  generalize body.runWith rules loops a = result, body.runWith rules loops b = result' at here
  obtain @⟨outcome, a', b', behind⟩ := here
  cases outcome with
  | ok value => exact later value behind
  | failed | stuck => exact .both behind

theorem withKind_local (kind : ReportKind) (inner : Local tape (body.runWith rules loops)) :
    Local tape ((body.withKind kind).runWith rules loops) := by
  intro marks others a b abreast
  have here := inner abreast
  simp only [runWith]
  generalize body.runWith rules loops a = result, body.runWith rules loops b = result' at here
  obtain @⟨outcome, a', b', behind⟩ := here
  cases outcome <;> exact .both behind

theorem recover_local (first : Local tape (body.runWith rules loops))
    (later : Local tape (fallback.runWith rules loops)) :
    Local tape ((body.recover fallback).runWith rules loops) := by
  intro marks others a b abreast
  have here := first abreast
  simp only [runWith]
  generalize body.runWith rules loops a = result, body.runWith rules loops b = result' at here
  obtain @⟨outcome, a', b', behind⟩ := here
  cases outcome with
  | ok | stuck => exact .both behind
  | failed r => exact later (behind.record r)

theorem attempt_local (inner : Local tape (body.runWith rules loops)) :
    Local tape (body.attempt.runWith rules loops) := by
  apply marked_local inner
  intro mark other outcome a b marks others level inside abreast
  cases outcome with
  | ok | stuck => exact .both abreast
  | failed r => exact abreast.rewind level inside fun back => .both back

theorem lookahead_local (inner : Local tape (body.runWith rules loops)) :
    Local tape (body.lookahead.runWith rules loops) := by
  apply marked_local inner
  intro mark other outcome a b marks others level inside abreast
  apply abreast.rewind level inside
  intro a b back
  cases outcome with
  | ok | stuck => exact .both back
  | failed r =>
    simp only [back.selection]
    exact .both back

theorem chain_local {operator : Parser Rule β} (combine : α → β → α → α)
    (term : Local tape (body.runWith rules loops))
    (between : Local tape (operator.runWith rules loops)) :
    Local tape ((body.chain operator combine).runWith rules loops) := by
  intro marks others a b abreast
  have here := term abreast
  simp only [runWith]
  generalize body.runWith rules loops a = result, body.runWith rules loops b = result' at here
  obtain @⟨outcome, a', b', behind⟩ := here
  cases outcome with
  | ok value => exact runChain_local combine term between loops value behind
  | failed | stuck => exact .both behind

end Combinators

/-- Every parser depends on the tape ahead and on nothing else, if every rule does. -/
theorem runWith_local {rules : ∀ {γ : Type}, Rule γ → Runner γ}
    (calls : ∀ {γ : Type} (rule : Rule γ), Local tape (rules rule)) (loops : Nat)
    (p : Parser Rule α) : Local tape (p.runWith rules loops) := by
  induction p with
  | token kind => exact runToken_local kind
  | succeed value => exact fun abreast => .both abreast
  | fail kind =>
    intro marks others a b abreast
    simp only [runWith, abreast.selection]
    exact .both abreast
  | finish => exact runFinish_local
  | bind first next ihf ihn => exact bind_local ihf ihn
  | orElse first second ihf ihs => exact runOrElse_local ihf ihs
  | withKind body kind ih => exact withKind_local kind ih
  | recover body fallback ihb ihf => exact recover_local ihb ihf
  | attempt body ih => exact attempt_local ih
  | lookahead body ih => exact lookahead_local ih
  | skipUntil body ih => exact runSkipUntil_local ih loops
  | many body ih => exact runMany_local ih loops
  | manyUntil body stop ihb ihs => exact runManyUntil_local ihb ihs loops
  | separated body delimiter ihb ihd => exact runSeparated_local ihb ihd loops
  | chain term operator combine iht iho => exact chain_local combine iht iho
  | call rule => exact calls rule

end Parser

theorem Grammar.runRule_local {Rule : Type → Type} (grammar : Grammar Rule) (loops depth : Nat)
    (rule : Rule α) : Local tape (grammar.runRule loops depth rule) := by
  induction depth generalizing α with
  | zero => exact fun abreast => .both abreast
  | succ depth ih => exact Parser.runWith_local ih loops (grammar rule)

/-- Two readers of one source may have got to a token in different ways, and different reports may
have been recorded. A parser that is run from there cannot tell. -/
theorem Grammar.run_abreast {Rule : Type → Type} (grammar : Grammar Rule) (loops depth : Nat)
    {id other : Nat} {source : String} {moves moves' : List Reader.Move}
    {session session' : Reader.Session}
    (reached : (Reader.Session.start id source).run moves = some session)
    (reached' : (Reader.Session.start other source).run moves' = some session')
    (same : session.reader.cursor = session'.reader.cursor) (reports reports' : List Report)
    (p : Parser Rule α) :
    let run := p.runWith (fun rule => grammar.runRule loops depth rule) loops
    (run ⟨session.reader, reports⟩).1 = (run ⟨session'.reader, reports'⟩).1 ∧
      (run ⟨session.reader, reports⟩).2.reader.cursor =
        (run ⟨session'.reader, reports'⟩).2.reader.cursor := by
  intro run
  have locals : Local (.ofSource source) run :=
    Parser.runWith_local (grammar.runRule_local loops depth) loops p
  have concurs := locals ⟨Reader.Session.on reached reports, Reader.Session.on reached' reports', same⟩
  generalize run ⟨session.reader, reports⟩ = result, run ⟨session'.reader, reports'⟩ = result'
    at concurs
  obtain ⟨abreast⟩ := concurs
  exact ⟨rfl, abreast.same⟩

end Statecraft
