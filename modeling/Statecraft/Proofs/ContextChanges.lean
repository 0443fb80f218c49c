import Mathlib.Logic.Relation
import Statecraft.Parser.Run

/-! What a run does to its context. There are five ways only: it moves on, records a failure,
takes a bookmark, returns to one or releases one. Which kinds of failures it records can be read
off its parser. So what each of the five keeps is kept by every run. -/
namespace Statecraft

/-- One change of a context. Failures of the given kinds may be recorded. -/
inductive Context.Alters (Kinds : ReportKind → Prop) : Context → Context → Prop where
  | advance {ctx next : Context} (moved : ctx.advance? = some next) : Alters Kinds ctx next
  | record {ctx : Context} {r : Report} (known : Kinds r.kind) : Alters Kinds ctx (ctx.record r)
  | bookmark {ctx : Context} : Alters Kinds ctx { ctx with reader := ctx.reader.bookmark.2 }
  | rewind {ctx : Context} {mark : Bookmark} {reader : Reader}
      (back : ctx.reader.backtrack mark = .ok reader) : Alters Kinds ctx { ctx with reader }
  | discard {ctx : Context} {mark : Bookmark} : Alters Kinds ctx (ctx.discard mark)

/-- Any number of changes, one after the other. -/
abbrev Context.Becomes (Kinds : ReportKind → Prop) := Relation.ReflTransGen (Context.Alters Kinds)

/-- The failures of the runner have these kinds. -/
def FailsAs {α : Type} (Kinds : ReportKind → Prop) (run : Runner α) : Prop :=
  ∀ ⦃ctx after : Context⦄ ⦃r : Report⦄, run ctx = (.failed r, after) → Kinds r.kind

/-- The runner changes its context step by step and records failures of these kinds only. -/
def Orderly {α : Type} (Kinds : ReportKind → Prop) (run : Runner α) : Prop :=
  ∀ ⦃ctx after : Context⦄ ⦃outcome : Outcome α⦄, run ctx = (outcome, after) →
    ctx.Becomes Kinds after

theorem Report.mostRelevant_kind (a b : Report) :
    (a.mostRelevant b).kind = a.kind ∨ (a.mostRelevant b).kind = b.kind := by
  simp only [mostRelevant]
  split
  · exact .inl rfl
  · exact .inr rfl
  · exact .inl rfl

namespace Parser

variable {Rule : Type → Type} {Kinds : ReportKind → Prop} {α β : Type} {run second : Runner α}

/-- The kinds of failures that can be read off a parser. -/
def Blames (Kinds : ReportKind → Prop) : {α : Type} → Parser Rule α → Prop
  | _, .token _ => Kinds .unexpectedToken ∧ Kinds .unexpectedEndOfInput
  | _, .succeed _ => True
  | _, .fail kind => Kinds kind
  | _, .finish => Kinds .endOfInputExpected
  | _, .bind first next => first.Blames Kinds ∧ ∀ value, (next value).Blames Kinds
  | _, .orElse first second => first.Blames Kinds ∧ second.Blames Kinds
  | _, .withKind _ kind => Kinds kind
  | _, .recover _ fallback => fallback.Blames Kinds
  | _, .attempt body => body.Blames Kinds
  | _, .lookahead body => body.Blames Kinds
  | _, .skipUntil body => body.Blames Kinds
  | _, .many body => body.Blames Kinds
  | _, .manyUntil body stop => body.Blames Kinds ∧ stop.Blames Kinds
  | _, .separated body delimiter => body.Blames Kinds ∧ delimiter.Blames Kinds
  | _, .chain term operator _ => term.Blames Kinds ∧ operator.Blames Kinds
  | _, .call _ => True

/-- The kinds of failures that a parser recovers from, and so records. -/
def Records (Kinds : ReportKind → Prop) : {α : Type} → Parser Rule α → Prop
  | _, .token _ | _, .succeed _ | _, .fail _ | _, .finish | _, .call _ => True
  | _, .bind first next => first.Records Kinds ∧ ∀ value, (next value).Records Kinds
  | _, .orElse first second => first.Records Kinds ∧ second.Records Kinds
  | _, .withKind body _ => body.Records Kinds
  | _, .recover body fallback =>
      body.Blames Kinds ∧ body.Records Kinds ∧ fallback.Records Kinds
  | _, .attempt body => body.Records Kinds
  | _, .lookahead body => body.Records Kinds
  | _, .skipUntil body => body.Records Kinds
  | _, .many body => body.Records Kinds
  | _, .manyUntil body stop => body.Records Kinds ∧ stop.Records Kinds
  | _, .separated body delimiter => body.Records Kinds ∧ delimiter.Records Kinds
  | _, .chain term operator _ => term.Records Kinds ∧ operator.Records Kinds

section Failures

theorem mostRelevant_known {a b : Report} (here : Kinds a.kind) (there : Kinds b.kind) :
    Kinds (a.mostRelevant b).kind := by
  rcases a.mostRelevant_kind b with same | same <;> rwa [same]

theorem runOrElse_fails (here : FailsAs Kinds run) (there : FailsAs Kinds second) :
    FailsAs Kinds (runOrElse run second) := by
  intro ctx after r failed
  simp only [runOrElse] at failed
  split at failed
  · rename_i first
    split at failed
    · cases failed
      exact here first
    · split at failed
      · rename_i next
        cases failed
        split
        · exact there next
        · exact mostRelevant_known (here first) (there next)
      · exact there failed
  · exact here failed

theorem runSkipUntil_fails (body : FailsAs Kinds run) (fuel : Nat) :
    FailsAs Kinds (runSkipUntil run fuel) := by
  induction fuel with
  | zero => exact fun _ _ _ failed => by cases failed
  | succ fuel ih =>
    intro ctx after r failed
    simp only [runSkipUntil] at failed
    split at failed
    · rename_i first
      split at failed
      · exact ih failed
      · cases failed
        exact body first
    · exact body failed

theorem prepend_failed {value : α} {rest : Outcome (List α) × Context} {r : Report}
    {after : Context} (failed : prepend value rest = (.failed r, after)) :
    rest = (.failed r, after) := by
  obtain ⟨outcome, last⟩ := rest
  cases outcome <;> cases failed
  rfl

theorem runMany_fails (body : FailsAs Kinds run) (fuel : Nat) :
    FailsAs Kinds (runMany run fuel) := by
  induction fuel with
  | zero => exact fun _ _ _ failed => by cases failed
  | succ fuel ih =>
    intro ctx after r failed
    simp only [runMany] at failed
    split at failed
    · cases failed
    · split at failed
      · exact ih (prepend_failed failed)
      · rename_i first
        split at failed <;> cases failed
        exact body first
      · cases failed

theorem runManyUntil_fails {stop : Runner β} (body : FailsAs Kinds run)
    (stops : FailsAs Kinds stop) (fuel : Nat) : FailsAs Kinds (runManyUntil run stop fuel) := by
  induction fuel with
  | zero => exact fun _ _ _ failed => by cases failed
  | succ fuel ih =>
    intro ctx after r failed
    simp only [runManyUntil] at failed
    split at failed
    · cases failed
    · cases failed
    · rename_i missing
      split at failed
      · cases failed
        exact stops missing
      · split at failed
        · exact ih (prepend_failed failed)
        · rename_i first
          cases failed
          split
          · exact body first
          · exact mostRelevant_known (stops missing) (body first)
        · cases failed

theorem runSeparated_fails {delimiter : Runner β} (body : FailsAs Kinds run)
    (between : FailsAs Kinds delimiter) (fuel : Nat) :
    FailsAs Kinds (runSeparated run delimiter fuel) := by
  induction fuel with
  | zero => exact fun _ _ _ failed => by cases failed
  | succ fuel ih =>
    intro ctx after r failed
    simp only [runSeparated] at failed
    split at failed
    · rename_i first
      split at failed <;> cases failed
      exact body first
    · cases failed
    · split at failed
      · exact ih (prepend_failed failed)
      · rename_i next
        split at failed <;> cases failed
        exact between next
      · cases failed

theorem runChain_fails {operator : Runner β} {combine : α → β → α → α} (term : FailsAs Kinds run)
    (between : FailsAs Kinds operator) (fuel : Nat) (left : α) :
    FailsAs Kinds (runChain run operator combine fuel left) := by
  induction fuel generalizing left with
  | zero => exact fun _ _ _ failed => by cases failed
  | succ fuel ih =>
    intro ctx after r failed
    simp only [runChain] at failed
    split at failed
    · rename_i joined
      split at failed <;> cases failed
      exact between joined
    · cases failed
    · split at failed
      · exact ih _ failed
      · exact term failed

theorem marked_fails {finish : Bookmark → Outcome α → Runner α} (body : FailsAs Kinds run)
    (finishes : ∀ {mark outcome ctx r after}, finish mark outcome ctx = (.failed r, after) →
      ∃ r', outcome = .failed r' ∧ r.kind = r'.kind) : FailsAs Kinds (marked run finish) := by
  intro ctx after r failed
  simp only [marked, Prod.mk.injEq] at failed
  obtain ⟨r', ended, same⟩ := finishes (Prod.ext failed.1 rfl)
  rw [same]
  exact body (Prod.ext ended rfl)

theorem rewind_failed {ctx after : Context} {mark : Bookmark} {next : Runner α} {r : Report}
    (failed : ctx.rewind mark next = (.failed r, after)) :
    ∃ earlier, next earlier = (.failed r, after) := by
  simp only [Context.rewind] at failed
  split at failed
  · exact ⟨_, failed⟩
  · cases failed

/-- What a parser blames is among the kinds read off it, if this is so for the rules. -/
theorem runWith_fails {rules : ∀ {γ : Type}, Rule γ → Runner γ}
    (called : ∀ {γ : Type} (rule : Rule γ), FailsAs Kinds (rules rule)) (loops : Nat)
    (p : Parser Rule α) (blames : p.Blames Kinds) : FailsAs Kinds (p.runWith rules loops) := by
  induction p with
  | token kind =>
    intro ctx after r failed
    simp only [runWith, runToken] at failed
    split at failed
    · cases failed
      exact blames.2
    · split at failed <;> cases failed
      exact blames.1
  | succeed => exact fun _ _ _ failed => by cases failed
  | fail kind =>
    intro ctx after r failed
    cases failed
    exact blames
  | finish =>
    intro ctx after r failed
    simp only [runWith, runFinish] at failed
    split at failed <;> cases failed
    exact blames
  | bind first next ihf ihn =>
    intro ctx after r failed
    simp only [runWith] at failed
    split at failed
    · exact ihn _ (blames.2 _) failed
    · rename_i same
      cases failed
      exact ihf blames.1 same
    · cases failed
  | orElse first second ihf ihs => exact runOrElse_fails (ihf blames.1) (ihs blames.2)
  | withKind body kind =>
    intro ctx after r failed
    simp only [runWith] at failed
    split at failed
    · -- Whatever the body blames, the given kind stands for it.
      cases failed
      exact blames
    · rename_i other
      exact absurd failed (other _ _)
  | recover body fallback ihb ihf =>
    intro ctx after r failed
    simp only [runWith] at failed
    split at failed
    · exact ihf blames failed
    · rename_i other
      exact absurd failed (other _ _)
  | attempt body ih =>
    refine marked_fails (ih blames) ?_
    intro mark outcome ctx r after failed
    cases outcome with
    | failed r' =>
      obtain ⟨earlier, same⟩ := rewind_failed failed
      cases same
      exact ⟨r, rfl, rfl⟩
    | ok | stuck => cases failed
  | lookahead body ih =>
    refine marked_fails (ih blames) ?_
    intro mark outcome ctx r after failed
    obtain ⟨earlier, same⟩ := rewind_failed failed
    cases outcome <;> cases same
    exact ⟨_, rfl, rfl⟩
  | skipUntil body ih => exact runSkipUntil_fails (ih blames) loops
  | many body ih => exact runMany_fails (ih blames) loops
  | manyUntil body stop ihb ihs => exact runManyUntil_fails (ihb blames.1) (ihs blames.2) loops
  | separated body delimiter ihb ihd => exact runSeparated_fails (ihb blames.1) (ihd blames.2) loops
  | chain term operator combine iht iho =>
    intro ctx after r failed
    simp only [runWith] at failed
    split at failed
    · exact runChain_fails (iht blames.1) (iho blames.2) loops _ failed
    · exact iht blames.1 failed
  | call rule => exact called rule

end Failures

section Changes

open Context (Becomes)

theorem runToken_orderly (kind : TokenKind) : Orderly Kinds (runToken kind) := by
  intro ctx after outcome ran
  simp only [runToken] at ran
  split at ran
  · cases ran
    exact .refl
  · split at ran
    · cases ran
      cases moved : ctx.advance? with
      | none => exact .refl
      | some next => exact .single (.advance moved)
    · cases ran
      exact .refl

theorem runFinish_orderly : Orderly Kinds runFinish := by
  intro ctx after outcome ran
  simp only [runFinish] at ran
  split at ran <;> cases ran <;> exact .refl

theorem runOrElse_orderly (here : Orderly Kinds run) (there : Orderly Kinds second) :
    Orderly Kinds (runOrElse run second) := by
  intro ctx after outcome ran
  simp only [runOrElse] at ran
  split at ran
  · rename_i first
    split at ran
    · cases ran
      exact here first
    · split at ran
      · rename_i next
        cases ran
        exact (here first).trans (there next)
      · exact (here first).trans (there ran)
  · exact here ran

theorem runSkipUntil_orderly (body : Orderly Kinds run) (fuel : Nat) :
    Orderly Kinds (runSkipUntil run fuel) := by
  induction fuel with
  | zero =>
    intro ctx after outcome ran
    cases ran
    exact .refl
  | succ fuel ih =>
    intro ctx after outcome ran
    simp only [runSkipUntil] at ran
    split at ran
    · rename_i first
      split at ran
      · rename_i moved
        exact ((body first).tail (.advance moved)).trans (ih ran)
      · cases ran
        exact body first
    · exact body ran

theorem prepend_after {value : α} {rest : Outcome (List α) × Context} {outcome : Outcome (List α)}
    {after : Context} (same : prepend value rest = (outcome, after)) : rest = (rest.1, after) := by
  obtain ⟨first, last⟩ := rest
  cases same
  rfl

theorem runMany_orderly (body : Orderly Kinds run) (fuel : Nat) :
    Orderly Kinds (runMany run fuel) := by
  induction fuel with
  | zero =>
    intro ctx after outcome ran
    cases ran
    exact .refl
  | succ fuel ih =>
    intro ctx after outcome ran
    simp only [runMany] at ran
    split at ran
    · cases ran
      exact .refl
    · split at ran
      · rename_i first
        exact (body first).trans (ih (prepend_after ran))
      · rename_i first
        split at ran <;> cases ran <;> exact body first
      · rename_i first
        cases ran
        exact body first

theorem runManyUntil_orderly {stop : Runner β} (body : Orderly Kinds run)
    (stops : Orderly Kinds stop) (fuel : Nat) : Orderly Kinds (runManyUntil run stop fuel) := by
  induction fuel with
  | zero =>
    intro ctx after outcome ran
    cases ran
    exact .refl
  | succ fuel ih =>
    intro ctx after outcome ran
    simp only [runManyUntil] at ran
    split at ran
    · rename_i ended
      cases ran
      exact stops ended
    · rename_i ended
      cases ran
      exact stops ended
    · rename_i missing
      split at ran
      · cases ran
        exact stops missing
      · refine (stops missing).trans ?_
        split at ran
        · rename_i first
          exact (body first).trans (ih (prepend_after ran))
        · rename_i first
          cases ran
          exact body first
        · rename_i first
          cases ran
          exact body first

theorem runSeparated_orderly {delimiter : Runner β} (body : Orderly Kinds run)
    (between : Orderly Kinds delimiter) (fuel : Nat) :
    Orderly Kinds (runSeparated run delimiter fuel) := by
  induction fuel with
  | zero =>
    intro ctx after outcome ran
    cases ran
    exact .refl
  | succ fuel ih =>
    intro ctx after outcome ran
    simp only [runSeparated] at ran
    split at ran
    · rename_i first
      split at ran <;> cases ran <;> exact body first
    · rename_i first
      cases ran
      exact body first
    · rename_i first
      refine (body first).trans ?_
      split at ran
      · rename_i next
        exact (between next).trans (ih (prepend_after ran))
      · rename_i next
        split at ran <;> cases ran <;> exact between next
      · rename_i next
        cases ran
        exact between next

theorem runChain_orderly {operator : Runner β} {combine : α → β → α → α} (term : Orderly Kinds run)
    (between : Orderly Kinds operator) (fuel : Nat) (left : α) :
    Orderly Kinds (runChain run operator combine fuel left) := by
  induction fuel generalizing left with
  | zero =>
    intro ctx after outcome ran
    cases ran
    exact .refl
  | succ fuel ih =>
    intro ctx after outcome ran
    simp only [runChain] at ran
    split at ran
    · rename_i joined
      split at ran <;> cases ran <;> exact between joined
    · rename_i joined
      cases ran
      exact between joined
    · rename_i joined
      refine (between joined).trans ?_
      split at ran
      · rename_i read
        exact (term read).trans (ih _ ran)
      · exact term ran

theorem marked_orderly {finish : Bookmark → Outcome α → Runner α} (body : Orderly Kinds run)
    (finishes : ∀ mark outcome, Orderly Kinds (finish mark outcome)) :
    Orderly Kinds (marked run finish) := by
  intro ctx after outcome ran
  cases ran
  exact ((Relation.ReflTransGen.head .bookmark (body rfl)).trans (finishes _ _ rfl)).tail .discard

theorem rewind_becomes {ctx after : Context} {mark : Bookmark} {next : Runner α}
    {outcome : Outcome α} (orderly : Orderly Kinds next)
    (ran : ctx.rewind mark next = (outcome, after)) : ctx.Becomes Kinds after := by
  simp only [Context.rewind] at ran
  split at ran
  · rename_i back
    exact .head (.rewind back) (orderly ran)
  · cases ran
    exact .refl

/-- A run is a course of changes that records what is read off the parser, if this is so for
the rules. -/
theorem runWith_orderly {rules : ∀ {γ : Type}, Rule γ → Runner γ}
    (called : ∀ {γ : Type} (rule : Rule γ), FailsAs Kinds (rules rule) ∧ Orderly Kinds (rules rule))
    (loops : Nat) (p : Parser Rule α) (records : p.Records Kinds) :
    Orderly Kinds (p.runWith rules loops) := by
  induction p with
  | token kind => exact runToken_orderly kind
  | succeed | fail =>
    intro ctx after outcome ran
    cases ran
    exact .refl
  | finish => exact runFinish_orderly
  | bind first next ihf ihn =>
    intro ctx after outcome ran
    simp only [runWith] at ran
    split at ran
    · rename_i read
      exact (ihf records.1 read).trans (ihn _ (records.2 _) ran)
    · rename_i read
      cases ran
      exact ihf records.1 read
    · rename_i read
      cases ran
      exact ihf records.1 read
  | orElse first second ihf ihs => exact runOrElse_orderly (ihf records.1) (ihs records.2)
  | withKind body kind ih =>
    intro ctx after outcome ran
    simp only [runWith] at ran
    split at ran
    · rename_i read
      cases ran
      exact ih records read
    · exact ih records ran
  | recover body fallback ihb ihf =>
    intro ctx after outcome ran
    simp only [runWith] at ran
    split at ran
    · rename_i failed
      -- This is where reports are recorded: the one the body failed with.
      have known := runWith_fails (fun rule => (called rule).1) loops body records.1 failed
      exact ((ihb records.2.1 failed).tail (.record known)).trans (ihf records.2.2 ran)
    · exact ihb records.2.1 ran
  | attempt body ih =>
    refine marked_orderly (ih records) ?_
    intro mark outcome ctx after result ran
    cases outcome with
    | failed r =>
      refine rewind_becomes ?_ ran
      intro ctx after outcome ran
      cases ran
      exact .refl
    | ok | stuck =>
      cases ran
      exact .refl
  | lookahead body ih =>
    refine marked_orderly (ih records) ?_
    intro mark outcome ctx after result ran
    refine rewind_becomes ?_ ran
    intro ctx after result ran
    cases outcome <;> cases ran <;> exact .refl
  | skipUntil body ih => exact runSkipUntil_orderly (ih records) loops
  | many body ih => exact runMany_orderly (ih records) loops
  | manyUntil body stop ihb ihs =>
    exact runManyUntil_orderly (ihb records.1) (ihs records.2) loops
  | separated body delimiter ihb ihd =>
    exact runSeparated_orderly (ihb records.1) (ihd records.2) loops
  | chain term operator combine iht iho =>
    intro ctx after outcome ran
    simp only [runWith] at ran
    split at ran
    · rename_i read
      exact (iht records.1 read).trans
        (runChain_orderly (iht records.1) (iho records.2) loops _ ran)
    · exact iht records.1 ran
  | call rule => exact (called rule).2

end Changes
end Parser

theorem Grammar.runRule_orderly {Rule : Type → Type} {grammar : Grammar Rule}
    {Kinds : ReportKind → Prop}
    (known : ∀ {γ : Type} (rule : Rule γ),
      (grammar rule).Blames Kinds ∧ (grammar rule).Records Kinds)
    (loops depth : Nat) {α : Type} (rule : Rule α) :
    FailsAs Kinds (grammar.runRule loops depth rule) ∧
      Orderly Kinds (grammar.runRule loops depth rule) := by
  induction depth generalizing α with
  | zero =>
    constructor
    · exact fun _ _ _ failed => by cases failed
    · intro ctx after outcome ran
      cases ran
      exact .refl
  | succ depth ih =>
    constructor
    · exact Parser.runWith_fails (fun rule => (ih rule).1) loops _ (known rule).1
    · exact Parser.runWith_orderly ih loops _ (known rule).2

end Statecraft
