import Statecraft.Proofs.GrammarVerdicts
import Statecraft.Proofs.ReaderMoves

/-! A failure tells by its place whether its parser has moved. Wherever a parser starts,
it never gets behind its start, releases the bookmarks it takes, and blames no place before
the one the reader is left at. So a report on the start of a parser means that the reader is
still there, and what is tried next is tried from the same token. -/
namespace Statecraft

namespace Tape

variable {tape : Tape} {i j : Nat}

/-- Where the token with the index starts. Behind the last token the text ends. -/
def placeAt (tape : Tape) (index : Nat) : Location := tape.place (tape.tokens.drop index)

theorem placeAt_lt (before : i < j) (inside : j ≤ tape.tokens.length) :
    tape.placeAt i < tape.placeAt j := by
  -- The token at the smaller index stands between the two rests.
  have here : tape.tokens.drop i =
      tape.tokens.get ⟨i, by omega⟩ :: (tape.tokens.drop (i + 1)).take (j - (i + 1)) ++
        tape.tokens.drop j := by
    rw [List.drop_eq_getElem_cons (by omega : i < tape.tokens.length), List.cons_append]
    congr 1
    have split := List.take_append_drop (j - (i + 1)) (tape.tokens.drop (i + 1))
    rw [List.drop_drop, Nat.add_sub_cancel' before] at split
    exact split.symm
  have later := place_lt (here ▸ List.drop_suffix i tape.tokens)
  rwa [placeAt, here]

theorem placeAt_le (before : i ≤ j) (inside : j ≤ tape.tokens.length) :
    tape.placeAt i ≤ tape.placeAt j := by
  rcases Nat.eq_or_lt_of_le before with rfl | before
  · exact Location.le_refl _
  · exact Location.le_of_lt (placeAt_lt before inside)

theorem placeAt_injective (here : i ≤ tape.tokens.length) (there : j ≤ tape.tokens.length)
    (same : tape.placeAt i = tape.placeAt j) : i = j := by
  rcases Nat.lt_trichotomy i j with before | equal | before
  · exact absurd (same ▸ placeAt_lt before there) (Location.lt_irrefl _)
  · exact equal
  · exact absurd (same ▸ placeAt_lt before here) (Location.lt_irrefl _)

end Tape

/-- The reader is on the tape and has these bookmarks. -/
structure Context.On (tape : Tape) (ctx : Context) (marks : List Bookmark) : Prop where
  keeps : ctx.reader.Keeps tape
  inside : ctx.reader.cursor ≤ tape.tokens.length
  marks : ctx.reader.marks = marks

/-- A run that started at the index ends on the tape, not before its start and with the
bookmarks it started with; a failure blames no place before the reader. -/
inductive Lands {α : Type} (tape : Tape) (start : Nat) (marks : List Bookmark) :
    Outcome α × Context → Prop where
  | ok {value : α} {after : Context} (on : after.On tape marks)
      (forward : start ≤ after.reader.cursor) : Lands tape start marks (.ok value, after)
  | failed {r : Report} {after : Context} {blamed : Nat} (on : after.On tape marks)
      (forward : start ≤ after.reader.cursor) (later : after.reader.cursor ≤ blamed)
      (inside : blamed ≤ tape.tokens.length) (located : r.location = tape.placeAt blamed) :
      Lands tape start marks (.failed r, after)
  | stuck {after : Context} (on : after.On tape marks) (forward : start ≤ after.reader.cursor) :
      Lands tape start marks (.stuck .outOfFuel, after)

/-- The runner lands wherever it starts. -/
def Commits {α : Type} (tape : Tape) (run : Runner α) : Prop :=
  ∀ {ctx : Context} {marks : List Bookmark}, ctx.On tape marks →
    Lands tape ctx.reader.cursor marks (run ctx)

variable {tape : Tape} {ctx : Context} {marks : List Bookmark} {α β : Type}

theorem Lands.since {start earlier : Nat} {result : Outcome α × Context}
    (lands : Lands tape start marks result) (before : earlier ≤ start) :
    Lands tape earlier marks result := by
  cases lands with
  | ok on forward => exact .ok on (Nat.le_trans before forward)
  | failed on forward later inside located =>
    exact .failed on (Nat.le_trans before forward) later inside located
  | stuck on forward => exact .stuck on (Nat.le_trans before forward)

namespace Context.On

theorem advance (on : ctx.On tape marks) (more : ctx.reader.cursor < tape.tokens.length) :
    ∃ next, ctx.advance? = some next ∧ next.On tape marks ∧
      next.reader.cursor = ctx.reader.cursor + 1 := by
  obtain ⟨reader, strays, moved, keeps, cursor, same, -⟩ := on.keeps.advance more
  refine ⟨ctx.take (reader, strays), by simp [Context.advance?, moved], ⟨keeps, ?_, ?_⟩, cursor⟩
  · exact cursor ▸ more
  · exact same.trans on.marks

theorem record (on : ctx.On tape marks) (r : Report) : (ctx.record r).On tape marks :=
  ⟨on.keeps, on.inside, on.marks⟩

/-- A failure at the current token leaves the reader where it is. -/
theorem refuses (on : ctx.On tape marks) {r : Report} (located : r.location = ctx.reader.location) :
    Lands tape ctx.reader.cursor marks ((.failed r, ctx) : Outcome α × Context) :=
  .failed on (Nat.le_refl _) (Nat.le_refl _) on.inside (located.trans on.keeps.location)

/-- A failure is final if and only if it blames another place than the start. -/
theorem progressed (on : ctx.On tape marks) {r : Report} {blamed : Nat}
    (inside : blamed ≤ tape.tokens.length) (located : r.location = tape.placeAt blamed) :
    Parser.progressed ctx.reader.location r = decide (blamed ≠ ctx.reader.cursor) := by
  simp only [Parser.progressed, located, on.keeps.location]
  refine decide_eq_decide.mpr (not_congr ⟨fun same => ?_, fun same => by rw [same]; rfl⟩)
  exact Tape.placeAt_injective inside on.inside same

theorem bookmark (on : ctx.On tape marks) :
    Context.On tape { ctx with reader := ctx.reader.bookmark.2 }
      (marks ++ [ctx.reader.bookmark.1]) ∧ ctx.reader.bookmark.1 ∉ marks := by
  obtain ⟨keeps, fresh⟩ := on.keeps.bookmark
  exact ⟨⟨keeps, on.inside, congrArg (· ++ [ctx.reader.bookmark.1]) on.marks⟩, on.marks ▸ fresh⟩

theorem discard {mark : Bookmark} (on : ctx.On tape (marks ++ [mark])) (fresh : mark ∉ marks) :
    (ctx.discard mark).On tape marks ∧
      (ctx.discard mark).reader.cursor = ctx.reader.cursor := by
  have cursor : (ctx.reader.discard mark).cursor = ctx.reader.cursor := by
    simp only [Reader.discard]
    split <;> rfl
  refine ⟨⟨on.keeps.discard mark, ?_, Reader.discard_marks on.marks fresh⟩, cursor⟩
  exact cursor ▸ on.inside

theorem rewind {mark : Bookmark} {next : Runner α} (on : ctx.On tape (marks ++ [mark]))
    (inside : mark.index ≤ tape.tokens.length) :
    ∃ earlier, ctx.rewind mark next = next earlier ∧ earlier.On tape (marks ++ [mark]) ∧
      earlier.reader.cursor = mark.index := by
  have live : mark ∈ ctx.reader.marks := by simp [on.marks]
  obtain ⟨returned, keeps⟩ := on.keeps.backtrack live
  refine ⟨{ ctx with reader := { ctx.reader with cursor := mark.index } }, ?_,
    ⟨keeps, inside, on.marks⟩, rfl⟩
  simp only [Context.rewind, returned]

end Context.On

namespace Parser

variable {Rule : Type → Type} {run second : Runner α}

theorem location_of_current {t : Token} (found : ctx.reader.current? = some t) :
    t.span.start = ctx.reader.location := by
  simp [Reader.location, Reader.selection, found]

theorem runToken_commits (kind : TokenKind) : Commits tape (runToken kind) := by
  intro ctx marks on
  simp only [runToken]
  cases found : ctx.reader.current? with
  | none => exact on.refuses rfl
  | some t =>
    dsimp only
    split
    · have current := on.keeps.current?
      rw [found] at current
      obtain ⟨next, moved, there, cursor⟩ := on.advance (List.getElem?_eq_some_iff.mp current.symm).1
      rw [moved]
      exact .ok there (cursor ▸ Nat.le_succ _)
    · exact on.refuses (location_of_current found)

theorem runFinish_commits : Commits tape runFinish := by
  intro ctx marks on
  simp only [runFinish]
  cases found : ctx.reader.current? with
  | none => exact .ok on (Nat.le_refl _)
  | some t => exact on.refuses (location_of_current found)

/-- Of two failures at one place the better explanation is there too. -/
theorem mostRelevant_located {a b : Report} {place : Location} (here : a.location = place)
    (there : b.location = place) : (a.mostRelevant b).location = place :=
  (Report.location_mostRelevant (here.trans there.symm)).trans here

theorem runOrElse_commits (here : Commits tape run) (there : Commits tape second) :
    Commits tape (runOrElse run second) := by
  intro ctx marks on
  have first := here on
  simp only [runOrElse]
  generalize run ctx = result at first
  cases first with
  | ok on' forward => exact .ok on' forward
  | stuck on' forward => exact .stuck on' forward
  | @failed r after blamed on' forward later inside located =>
    simp only [on.progressed inside located, decide_eq_true_eq]
    -- If the blame is on the start, the second is run from there and two reports may merge.
    by_cases same : blamed = ctx.reader.cursor
    · have next := (there on').since forward
      simp only [same, ne_eq, not_true_eq_false, if_false]
      generalize second after = result at next
      cases next with
      | ok on forward => exact .ok on forward
      | stuck on forward => exact .stuck on forward
      | failed on'' forward' later' inside' located' =>
        refine .failed on'' forward' later' inside' ?_
        simp only [on.progressed inside' located', decide_eq_true_eq]
        split
        · exact located'
        · rename_i still
          rw [Decidable.not_not.mp still] at located' ⊢
          exact mostRelevant_located (same ▸ located) located'
    · simp only [ne_eq, same, not_false_eq_true, if_true]
      exact .failed on' forward later inside located

theorem runSkipUntil_commits (body : Commits tape run) (fuel : Nat) :
    Commits tape (runSkipUntil run fuel) := by
  induction fuel with
  | zero => exact fun on => .stuck on (Nat.le_refl _)
  | succ fuel ih =>
    intro ctx marks on
    have first := body on
    simp only [runSkipUntil]
    generalize run ctx = result at first
    cases first with
    | ok on' forward => exact .ok on' forward
    | stuck on' forward => exact .stuck on' forward
    | @failed r after blamed on' forward later inside located =>
      rcases Nat.lt_or_ge after.reader.cursor tape.tokens.length with more | ended
      · obtain ⟨next, moved, on'', cursor⟩ := on'.advance more
        simp only [moved]
        exact (ih on'').since (by omega)
      · simp only [Context.advance?, on'.keeps.advance_end ended, Option.map_none]
        exact .failed on' forward later inside located

theorem prepend_lands (value : α) {start : Nat} {result : Outcome (List α) × Context}
    (lands : Lands tape start marks result) : Lands tape start marks (prepend value result) := by
  cases lands with
  | ok on forward => exact .ok on forward
  | failed on forward later inside located => exact .failed on forward later inside located
  | stuck on forward => exact .stuck on forward

theorem runMany_commits (body : Commits tape run) (fuel : Nat) : Commits tape (runMany run fuel) := by
  induction fuel with
  | zero => exact fun on => .stuck on (Nat.le_refl _)
  | succ fuel ih =>
    intro ctx marks on
    have first := body on
    simp only [runMany]
    split
    · exact .ok on (Nat.le_refl _)
    · generalize run ctx = result at first
      cases first with
      | ok on' forward => exact prepend_lands _ ((ih on').since forward)
      | stuck on' forward => exact .stuck on' forward
      | failed on' forward later inside located =>
        dsimp only
        split
        · exact .failed on' forward later inside located
        · exact .ok on' forward

theorem runManyUntil_commits {stop : Runner β} (body : Commits tape run) (stops : Commits tape stop)
    (fuel : Nat) : Commits tape (runManyUntil run stop fuel) := by
  induction fuel with
  | zero => exact fun on => .stuck on (Nat.le_refl _)
  | succ fuel ih =>
    intro ctx marks on
    have first := stops on
    simp only [runManyUntil]
    generalize stop ctx = result at first
    cases first with
    | ok on' forward => exact .ok on' forward
    | stuck on' forward => exact .stuck on' forward
    | @failed missing after blamed on' forward later inside located =>
      simp only [on.progressed inside located, Bool.or_eq_true, decide_eq_true_eq]
      split
      · exact .failed on' forward later inside located
      · rename_i here
        have same : blamed = ctx.reader.cursor := Decidable.not_not.mp (not_or.mp here).1
        have next := (body on').since forward
        generalize run after = result at next
        cases next with
        | ok on'' forward' => exact prepend_lands _ ((ih on'').since forward')
        | stuck on'' forward' => exact .stuck on'' forward'
        | failed on'' forward' later' inside' located' =>
          refine .failed on'' forward' later' inside' ?_
          simp only [on.progressed inside' located', decide_eq_true_eq]
          split
          · exact located'
          · rename_i still
            rw [Decidable.not_not.mp still] at located' ⊢
            exact mostRelevant_located (same ▸ located) located'

theorem runSeparated_commits {delimiter : Runner β} (body : Commits tape run)
    (between : Commits tape delimiter) (fuel : Nat) :
    Commits tape (runSeparated run delimiter fuel) := by
  induction fuel with
  | zero => exact fun on => .stuck on (Nat.le_refl _)
  | succ fuel ih =>
    intro ctx marks on
    have first := body on
    simp only [runSeparated]
    generalize run ctx = result at first
    cases first with
    | stuck on' forward => exact .stuck on' forward
    | failed on' forward later inside located =>
      dsimp only
      split
      · exact .ok on' forward
      · exact .failed on' forward later inside located
    | @ok value after on' forward =>
      have next := (between on').since forward
      dsimp only
      generalize delimiter after = result at next
      cases next with
      | ok on'' forward' => exact prepend_lands _ ((ih on'').since forward')
      | stuck on'' forward' => exact .stuck on'' forward'
      | failed on'' forward' later inside located =>
        dsimp only
        split
        · exact .ok on'' forward'
        · exact .failed on'' forward' later inside located

theorem runChain_commits {operator : Runner β} (combine : α → β → α → α) (term : Commits tape run)
    (between : Commits tape operator) (fuel : Nat) (left : α) :
    Commits tape (runChain run operator combine fuel left) := by
  induction fuel generalizing left with
  | zero => exact fun on => .stuck on (Nat.le_refl _)
  | succ fuel ih =>
    intro ctx marks on
    have first := between on
    simp only [runChain]
    generalize operator ctx = result at first
    cases first with
    | stuck on' forward => exact .stuck on' forward
    | failed on' forward later inside located =>
      dsimp only
      split
      · exact .failed on' forward later inside located
      · exact .ok on' forward
    | @ok op after on' forward =>
      have next := (term on').since forward
      dsimp only
      generalize run after = result at next
      cases next with
      | ok on'' forward' => exact (ih _ on'').since forward'
      | stuck on'' forward' => exact .stuck on'' forward'
      | failed on'' forward' later inside located =>
        exact .failed on'' forward' later inside located

/-- A run under a new bookmark lands, if what is done with the bookmark at the end does. -/
theorem marked_commits {finish : Bookmark → Outcome α → Runner α} (body : Commits tape run)
    (finishes : ∀ {mark outcome after marks}, mark.index ≤ tape.tokens.length →
      Lands tape mark.index (marks ++ [mark]) (outcome, after) →
        Lands tape mark.index (marks ++ [mark]) (finish mark outcome after)) :
    Commits tape (marked run finish) := by
  intro ctx marks on
  obtain ⟨opened, fresh⟩ := on.bookmark
  have runs : Lands tape ctx.reader.bookmark.1.index (marks ++ [ctx.reader.bookmark.1])
      (run { ctx with reader := ctx.reader.bookmark.2 }) := body opened
  have closes := finishes on.inside runs
  simp only [marked]
  generalize finish ctx.reader.bookmark.1 _ _ = result at closes
  cases closes with
  | ok on' forward =>
    obtain ⟨released, cursor⟩ := on'.discard fresh
    exact .ok released (cursor ▸ forward)
  | failed on' forward later inside located =>
    obtain ⟨released, cursor⟩ := on'.discard fresh
    exact .failed released (cursor ▸ forward) (cursor ▸ later) inside located
  | stuck on' forward =>
    obtain ⟨released, cursor⟩ := on'.discard fresh
    exact .stuck released (cursor ▸ forward)

section Combinators

variable {rules : ∀ {γ : Type}, Rule γ → Runner γ} {loops : Nat} {body fallback : Parser Rule α}

theorem bind_commits {next : α → Parser Rule β} (first : Commits tape (body.runWith rules loops))
    (second : ∀ value, Commits tape ((next value).runWith rules loops)) :
    Commits tape ((body.bind next).runWith rules loops) := by
  intro ctx marks on
  have here := first on
  simp only [runWith]
  generalize body.runWith rules loops ctx = result at here
  cases here with
  | ok on' forward => exact (second _ on').since forward
  | failed on' forward later inside located => exact .failed on' forward later inside located
  | stuck on' forward => exact .stuck on' forward

theorem withKind_commits (kind : ReportKind) (commits : Commits tape (body.runWith rules loops)) :
    Commits tape ((body.withKind kind).runWith rules loops) := by
  intro ctx marks on
  have here := commits on
  simp only [runWith]
  generalize body.runWith rules loops ctx = result at here
  cases here with
  | ok on' forward => exact .ok on' forward
  | failed on' forward later inside located => exact .failed on' forward later inside located
  | stuck on' forward => exact .stuck on' forward

theorem recover_commits (first : Commits tape (body.runWith rules loops))
    (second : Commits tape (fallback.runWith rules loops)) :
    Commits tape ((body.recover fallback).runWith rules loops) := by
  intro ctx marks on
  have here := first on
  simp only [runWith]
  generalize body.runWith rules loops ctx = result at here
  cases here with
  | ok on' forward => exact .ok on' forward
  | @failed r after blamed on' forward => exact (second (on'.record r)).since forward
  | stuck on' forward => exact .stuck on' forward

theorem attempt_commits (commits : Commits tape (body.runWith rules loops)) :
    Commits tape (body.attempt.runWith rules loops) := by
  refine marked_commits commits ?_
  intro mark outcome after marks inside lands
  cases lands with
  | ok on forward => exact .ok on forward
  | stuck on forward => exact .stuck on forward
  | @failed r _ blamed on forward later bounded located =>
    -- The reader returns and the report does not, so it still blames no earlier place.
    obtain ⟨earlier, same, back, cursor⟩ := on.rewind inside
    dsimp only
    rw [same]
    exact .failed back (Nat.le_of_eq cursor.symm) (by omega) bounded located

theorem lookahead_commits (commits : Commits tape (body.runWith rules loops)) :
    Commits tape (body.lookahead.runWith rules loops) := by
  refine marked_commits commits ?_
  intro mark outcome after marks inside lands
  cases lands with
  | ok on =>
    obtain ⟨earlier, same, back, cursor⟩ := on.rewind inside
    rw [same]
    exact .ok back (Nat.le_of_eq cursor.symm)
  | stuck on =>
    obtain ⟨earlier, same, back, cursor⟩ := on.rewind inside
    rw [same]
    exact .stuck back (Nat.le_of_eq cursor.symm)
  | failed on =>
    obtain ⟨earlier, same, back, cursor⟩ := on.rewind inside
    rw [same]
    exact (back.refuses rfl).since (Nat.le_of_eq cursor.symm)

theorem chain_commits {operator : Parser Rule β} (combine : α → β → α → α)
    (term : Commits tape (body.runWith rules loops))
    (between : Commits tape (operator.runWith rules loops)) :
    Commits tape ((body.chain operator combine).runWith rules loops) := by
  intro ctx marks on
  have here := term on
  simp only [runWith]
  generalize body.runWith rules loops ctx = result at here
  cases here with
  | ok on' forward => exact (runChain_commits combine term between loops _ on').since forward
  | failed on' forward later inside located => exact .failed on' forward later inside located
  | stuck on' forward => exact .stuck on' forward

end Combinators

/-- Every parser lands, if every rule does. -/
theorem runWith_commits {rules : ∀ {γ : Type}, Rule γ → Runner γ}
    (commits : ∀ {γ : Type} (rule : Rule γ), Commits tape (rules rule)) (loops : Nat)
    (p : Parser Rule α) : Commits tape (p.runWith rules loops) := by
  induction p with
  | token kind => exact runToken_commits kind
  | succeed value => exact fun on => .ok on (Nat.le_refl _)
  | fail kind => exact fun on => on.refuses rfl
  | finish => exact runFinish_commits
  | bind first next ihf ihn => exact bind_commits ihf ihn
  | orElse first second ihf ihs => exact runOrElse_commits ihf ihs
  | withKind body kind ih => exact withKind_commits kind ih
  | recover body fallback ihb ihf => exact recover_commits ihb ihf
  | attempt body ih => exact attempt_commits ih
  | lookahead body ih => exact lookahead_commits ih
  | skipUntil body ih => exact runSkipUntil_commits ih loops
  | many body ih => exact runMany_commits ih loops
  | manyUntil body stop ihb ihs => exact runManyUntil_commits ihb ihs loops
  | separated body delimiter ihb ihd => exact runSeparated_commits ihb ihd loops
  | chain term operator combine iht iho => exact chain_commits combine iht iho
  | call rule => exact commits rule

end Parser

theorem Grammar.runRule_commits {Rule : Type → Type} (grammar : Grammar Rule) (loops depth : Nat)
    (rule : Rule α) : Commits tape (grammar.runRule loops depth rule) := by
  induction depth generalizing α with
  | zero => exact fun on => .stuck on (Nat.le_refl _)
  | succ depth ih => exact Parser.runWith_commits ih loops (grammar rule)

/-- What a run that starts in the context guarantees, however it ends. -/
structure Committed (ctx : Context) (result : Outcome α × Context) : Prop where
  forward : ctx.reader.cursor ≤ result.2.reader.cursor
  marks : result.2.reader.marks = ctx.reader.marks
  returns : ∀ error, result.1 ≠ .stuck (.bookmark error)
  later : ∀ r, result.1 = .failed r → ctx.reader.location ≤ r.location
  unmoved : ∀ r, result.1 = .failed r → Parser.progressed ctx.reader.location r = false →
    result.2.reader.cursor = ctx.reader.cursor ∧ result.2.reader.current? = ctx.reader.current?

theorem Lands.committed {result : Outcome α × Context} (on : ctx.On tape marks)
    (lands : Lands tape ctx.reader.cursor marks result) : Committed ctx result := by
  have current {after : Context} (there : after.On tape marks)
      (same : after.reader.cursor = ctx.reader.cursor) :
      after.reader.current? = ctx.reader.current? := by
    rw [there.keeps.current?, on.keeps.current?, same]
  cases lands with
  | ok there forward =>
    refine ⟨forward, there.marks.trans on.marks.symm, ?_, ?_, ?_⟩
    all_goals
      rintro _ ⟨⟩
  | stuck there forward =>
    refine ⟨forward, there.marks.trans on.marks.symm, ?_, ?_, ?_⟩
    all_goals
      rintro _ ⟨⟩
  | @failed r after blamed there forward later inside located =>
    refine ⟨forward, there.marks.trans on.marks.symm, ?_, ?_, ?_⟩
    · rintro _ ⟨⟩
    · rintro _ ⟨⟩
      rw [located, on.keeps.location]
      exact Tape.placeAt_le (Nat.le_trans forward later) inside
    · rintro _ ⟨⟩ refused
      simp only [on.progressed inside located, decide_eq_false_iff_not, ne_eq,
        Decidable.not_not] at refused
      have same : after.reader.cursor = ctx.reader.cursor := by omega
      exact ⟨same, current there same⟩

/-- In the course of a run, what the parser tries next and in which context: the
alternatives of a choice, and the attempts that decide whether a repetition goes on. -/
inductive Parser.Tries {Rule : Type → Type} (rules : ∀ {γ : Type}, Rule γ → Runner γ)
    (loops : Nat) : {α β : Type} → Parser Rule α → Context → Parser Rule β → Context → Prop where
  | first {α : Type} {p q : Parser Rule α} {ctx : Context} : Tries rules loops (p.orElse q) ctx p ctx
  | second {α : Type} {p q : Parser Rule α} {ctx after : Context} {r : Report}
      (refused : p.runWith rules loops ctx = (.failed r, after))
      (unmoved : progressed ctx.reader.location r = false) :
      Tries rules loops (p.orElse q) ctx q after
  | target {α : Type} {p : Parser Rule α} {ctx : Context} : Tries rules loops p.skipUntil ctx p ctx
  | item {α : Type} {p : Parser Rule α} {ctx : Context} (more : ctx.reader.atEnd = false) :
      Tries rules loops p.many ctx p ctx
  | stop {α β : Type} {p : Parser Rule α} {stop : Parser Rule β} {ctx : Context} :
      Tries rules loops (p.manyUntil stop) ctx stop ctx
  | element {α β : Type} {p : Parser Rule α} {stop : Parser Rule β} {ctx after : Context} {r : Report}
      (refused : stop.runWith rules loops ctx = (.failed r, after))
      (unmoved : progressed ctx.reader.location r = false) (more : after.reader.atEnd = false) :
      Tries rules loops (p.manyUntil stop) ctx p after
  | entry {α β : Type} {p : Parser Rule α} {delimiter : Parser Rule β} {ctx : Context} :
      Tries rules loops (p.separated delimiter) ctx p ctx
  | operator {α β : Type} {term : Parser Rule α} {operator : Parser Rule β} {combine : α → β → α → α}
      {ctx : Context} : Tries rules loops (term.chain operator combine) ctx operator ctx

/-- Whatever is tried is tried from the token where the choice or the round began. -/
theorem Parser.Tries.same {Rule : Type → Type} {rules : ∀ {γ : Type}, Rule γ → Runner γ}
    (commits : ∀ {γ : Type} (rule : Rule γ), Commits tape (rules rule)) {loops : Nat}
    {p : Parser Rule α} {q : Parser Rule β} {there : Context} (tries : Tries rules loops p ctx q there)
    (on : ctx.On tape marks) : there.On tape marks ∧ there.reader.cursor = ctx.reader.cursor := by
  have refuses {γ : Type} (p : Parser Rule γ) {r : Report} {after : Context}
      (refused : p.runWith rules loops ctx = (.failed r, after))
      (unmoved : progressed ctx.reader.location r = false) :
      after.On tape marks ∧ after.reader.cursor = ctx.reader.cursor := by
    have lands := runWith_commits commits loops p on
    rw [refused] at lands
    have same := ((lands.committed on).unmoved r rfl unmoved).1
    cases lands with
    | failed there => exact ⟨there, same⟩
  cases tries with
  | first | target | item | stop | entry | operator => exact ⟨on, rfl⟩
  | second refused unmoved => exact refuses _ refused unmoved
  | element refused unmoved => exact refuses _ refused unmoved

/-- A reader that is used in any way is on the tape of its source. -/
theorem Reader.Session.on {id : Nat} {source : String} {moves : List Move} {session : Session}
    (reached : (Session.start id source).run moves = some session) (reports : List Report) :
    Context.On (.ofSource source) ⟨session.reader, reports⟩ session.reader.marks := by
  have runs := (start_tracks id source).run moves
  rw [reached] at runs
  generalize Cursor.start.run _ moves = there at runs
  cases runs with
  | some tracks => exact ⟨tracks.keeps, tracks.cursor ▸ tracks.inside, rfl⟩

/-- Wherever a reader may be, a parser that is run from there never gets behind its start,
keeps the bookmarks and can return to its own, and reports no failure before its start; a
failure on its start leaves the reader at the token it started from. So every alternative
and every attempt of a repetition is tried from one and the same token. -/
theorem Grammar.run_committed {Rule : Type → Type} (grammar : Grammar Rule) (loops depth : Nat)
    {id : Nat} {source : String} {moves : List Reader.Move} {session : Reader.Session}
    (reached : (Reader.Session.start id source).run moves = some session) (reports : List Report)
    (p : Parser Rule α) :
    Committed ⟨session.reader, reports⟩
        (p.runWith (fun rule => grammar.runRule loops depth rule) loops ⟨session.reader, reports⟩) ∧
      ∀ {β : Type} (q : Parser Rule β) (there : Context),
        Parser.Tries (fun rule => grammar.runRule loops depth rule) loops p
          ⟨session.reader, reports⟩ q there →
        there.reader.cursor = session.reader.cursor ∧
          there.reader.current? = session.reader.current? := by
  have on := Reader.Session.on reached reports
  have lands := Parser.runWith_commits (grammar.runRule_commits loops depth) loops p on
  refine ⟨lands.committed on, ?_⟩
  intro β q there tries
  obtain ⟨on', same⟩ := tries.same (grammar.runRule_commits loops depth) on
  refine ⟨same, ?_⟩
  rw [on'.keeps.current?, on.keeps.current?, same]

/-- An attempt that fails behind the start and is undone, before an alternative that must
not be tried. -/
def undone : Parser (fun _ => Empty) Token :=
  ((Parser.token .assign).andThen (.token .semicolon)).attempt.orElse (.token .number)

theorem Grammar.run_committed_undone :
    ∃ session, (Reader.Session.start 0 "a:=b;").run [.bookmark, .advance] = some session ∧
      Committed ⟨session.reader, []⟩
        (undone.runWith (fun rule => Grammar.runRule nofun 3 3 rule) 3 ⟨session.reader, []⟩) := by
  have some : ((Reader.Session.start 0 "a:=b;").run [.bookmark, .advance]).isSome = true := by
    decide +kernel
  obtain ⟨session, reached⟩ := Option.isSome_iff_exists.mp some
  exact ⟨session, reached, (Grammar.run_committed nofun 3 3 reached [] undone).1⟩

end Statecraft
