import Statecraft.Proofs.ContextChanges
import Statecraft.Proofs.Extent

/-! Where the reports of a parser point to. A parser blames what its reader stands at: a token or
the place just past the source. Other failures only hand such a range on, and stray characters
stand where they were scanned. So if the ranges of a source have a property, and so do the places
after its lexemes, all reports on it have the property. -/
namespace Statecraft

/-- Every range that the reader can still come to has the property. -/
structure Reader.Aimed (Fine : Selection → Prop) (r : Reader) : Prop where
  window : ∀ t ∈ r.window, Fine t.span
  pending : ∀ x ∈ r.pending, Fine x.selection ∧ Fine (.char x.next)
  frontier : Fine (.char r.frontier)

structure Context.Aimed (Fine : Selection → Prop) (ctx : Context) : Prop where
  reader : ctx.reader.Aimed Fine
  reports : ∀ r ∈ ctx.reports, Fine r.selection

def Outcome.Aimed {α : Type} (Fine : Selection → Prop) : Outcome α → Prop
  | .failed r => Fine r.selection
  | .ok _ | .stuck _ => True

/-- The runner reports and blames only what has the property. -/
def Aims {α : Type} (Fine : Selection → Prop) (run : Runner α) : Prop :=
  ∀ ⦃ctx after : Context⦄ ⦃outcome : Outcome α⦄, run ctx = (outcome, after) →
    ctx.Aimed Fine → after.Aimed Fine ∧ outcome.Aimed Fine

variable {Fine : Selection → Prop}

namespace Reader

variable {r : Reader}

theorem pull_aimed {frontier : Location} {lexemes : List Lexeme} (here : Fine (.char frontier))
    (lexed : ∀ x ∈ lexemes, Fine x.selection ∧ Fine (.char x.next)) :
    (∀ t ∈ (pull frontier lexemes).token?, Fine t.span) ∧
      (∀ x ∈ (pull frontier lexemes).pending, Fine x.selection ∧ Fine (.char x.next)) ∧
      Fine (.char (pull frontier lexemes).frontier) ∧
      ∀ s ∈ (pull frontier lexemes).strays, Fine (.char s.location) := by
  induction lexemes generalizing frontier with
  | nil => simp [pull, here]
  | cons x rest ih =>
    obtain ⟨first, later⟩ := List.forall_mem_cons.mp lexed
    simp only [pull]
    split
    · rename_i t found
      refine ⟨?_, later, first.2, List.forall_mem_nil _⟩
      rintro _ ⟨⟩
      cases x with
      | stray => contradiction
      | token u =>
        simp only [Lexeme.significant?, Option.ite_none_left_eq_some, Option.some.injEq] at found
        rw [← found.2]
        exact first.1
    · obtain ⟨token, pending, last, strays⟩ := ih first.2 later
      refine ⟨token, pending, last, List.forall_mem_append.mpr ⟨?_, strays⟩⟩
      cases x with
      | token => exact List.forall_mem_nil _
      | stray s => exact List.forall_mem_singleton.mpr first.1

theorem Aimed.fill (aimed : r.Aimed Fine) :
    r.fill.1.Aimed Fine ∧ ∀ s ∈ r.fill.2, Fine (.char s.location) := by
  simp only [Reader.fill]
  split
  · obtain ⟨token, pending, frontier, strays⟩ := pull_aimed aimed.frontier aimed.pending
    refine ⟨⟨List.forall_mem_append.mpr ⟨aimed.window, ?_⟩, pending, frontier⟩, strays⟩
    exact fun t member => token t (Option.mem_toList.mp member)
  · exact ⟨aimed, List.forall_mem_nil _⟩

theorem Aimed.prune (aimed : r.Aimed Fine) : r.prune.Aimed Fine :=
  ⟨fun t member => aimed.window t (List.mem_of_mem_drop member), aimed.pending, aimed.frontier⟩

theorem Aimed.discard (aimed : r.Aimed Fine) (mark : Bookmark) : (r.discard mark).Aimed Fine := by
  simp only [Reader.discard]
  split
  · exact Aimed.prune ⟨aimed.window, aimed.pending, aimed.frontier⟩
  · exact aimed

theorem Aimed.backtrack {mark : Bookmark} {back : Reader} (aimed : r.Aimed Fine)
    (returned : r.backtrack mark = .ok back) : back.Aimed Fine := by
  simp only [Reader.backtrack] at returned
  split at returned
  · contradiction
  · split at returned
    · contradiction
    · cases returned
      exact ⟨aimed.window, aimed.pending, aimed.frontier⟩

theorem Aimed.current {t : Token} (aimed : r.Aimed Fine) (current : r.current? = some t) :
    Fine t.span := by
  simp only [current?] at current
  split at current
  · contradiction
  · exact aimed.window t (List.mem_of_getElem? current)

theorem Aimed.selection (aimed : r.Aimed Fine) : Fine r.selection := by
  simp only [Reader.selection]
  split
  · rename_i t current
    exact aimed.current current
  · exact aimed.frontier

theorem Aimed.advance {next : Reader} {strays : List Stray} (aimed : r.Aimed Fine)
    (moved : r.advance? = some (next, strays)) :
    next.Aimed Fine ∧ ∀ s ∈ strays, Fine (.char s.location) := by
  simp only [advance?] at moved
  split at moved
  · contradiction
  · cases moved
    have further : ({ r with cursor := r.cursor + 1 } : Reader).Aimed Fine :=
      ⟨aimed.window, aimed.pending, aimed.frontier⟩
    exact ⟨further.fill.1.prune, further.fill.2⟩

theorem Aimed.advanceMany (n : Nat) (aimed : r.Aimed Fine) :
    ∀ s ∈ (advanceMany n r).2.2, Fine (.char s.location) := by
  induction n generalizing r with
  | zero => exact List.forall_mem_nil _
  | succ n ih =>
    simp only [Reader.advanceMany]
    split
    · exact List.forall_mem_nil _
    · rename_i next strays moved
      obtain ⟨further, passed⟩ := aimed.advance moved
      exact List.forall_mem_append.mpr ⟨passed, ih further⟩

end Reader

namespace Context

variable {ctx next : Context}

theorem Aimed.record {r : Report} (aimed : ctx.Aimed Fine) (blamed : Fine r.selection) :
    (ctx.record r).Aimed Fine :=
  ⟨aimed.reader, List.forall_mem_append.mpr
    ⟨aimed.reports, List.forall_mem_singleton.mpr blamed⟩⟩

/-- Moving on reports the strays on the way; bookmarks change no range. -/
theorem Aimed.alters (aimed : ctx.Aimed Fine) (alters : ctx.Alters (fun _ => False) next) :
    next.Aimed Fine := by
  cases alters with
  | advance moved =>
    obtain ⟨⟨reader, strays⟩, found, rfl⟩ := Option.map_eq_some_iff.mp moved
    obtain ⟨further, passed⟩ := aimed.reader.advance found
    exact ⟨further, List.forall_mem_append.mpr
      ⟨aimed.reports, List.forall_mem_map.mpr passed⟩⟩
  | record known => exact known.elim
  | bookmark =>
    exact ⟨⟨aimed.reader.window, aimed.reader.pending, aimed.reader.frontier⟩, aimed.reports⟩
  | rewind back => exact ⟨aimed.reader.backtrack back, aimed.reports⟩
  | discard => exact ⟨aimed.reader.discard _, aimed.reports⟩

end Context

theorem Report.mostRelevant_selection (a b : Report) :
    (a.mostRelevant b).selection = a.selection ∨ (a.mostRelevant b).selection = b.selection := by
  simp only [mostRelevant]
  split
  · exact .inl rfl
  · exact .inr rfl
  · exact .inl rfl

namespace Parser

variable {Rule : Type → Type} {α β : Type} {run second : Runner α}

theorem mostRelevant_fine {a b : Report} (here : Fine a.selection) (there : Fine b.selection) :
    Fine (a.mostRelevant b).selection := by
  rcases a.mostRelevant_selection b with same | same <;> rwa [same]

theorem runToken_aims (kind : TokenKind) : Aims Fine (runToken kind) := by
  intro ctx after outcome ran aimed
  simp only [runToken] at ran
  split at ran
  · cases ran
    exact ⟨aimed, aimed.reader.selection⟩
  · rename_i t current
    split at ran
    · cases ran
      refine ⟨?_, trivial⟩
      cases moved : ctx.advance? with
      | none => exact aimed
      | some next => exact aimed.alters (.advance moved)
    · cases ran
      exact ⟨aimed, aimed.reader.current current⟩

theorem runFinish_aims : Aims Fine runFinish := by
  intro ctx after outcome ran aimed
  simp only [runFinish] at ran
  split at ran
  · cases ran
    exact ⟨aimed, trivial⟩
  · rename_i t current
    cases ran
    exact ⟨aimed, aimed.reader.current current⟩

theorem runOrElse_aims (here : Aims Fine run) (there : Aims Fine second) :
    Aims Fine (runOrElse run second) := by
  intro ctx after outcome ran aimed
  simp only [runOrElse] at ran
  split at ran
  · rename_i first
    obtain ⟨between, blamed⟩ := here first aimed
    split at ran
    · cases ran
      exact ⟨between, blamed⟩
    · split at ran
      · rename_i next
        obtain ⟨last, blamed'⟩ := there next between
        cases ran
        refine ⟨last, ?_⟩
        simp only [Outcome.Aimed]
        split
        · exact blamed'
        · exact mostRelevant_fine blamed blamed'
      · exact there ran between
  · exact here ran aimed

theorem runSkipUntil_aims (body : Aims Fine run) (fuel : Nat) :
    Aims Fine (runSkipUntil run fuel) := by
  induction fuel with
  | zero =>
    intro ctx after outcome ran aimed
    cases ran
    exact ⟨aimed, trivial⟩
  | succ fuel ih =>
    intro ctx after outcome ran aimed
    simp only [runSkipUntil] at ran
    split at ran
    · rename_i first
      obtain ⟨between, blamed⟩ := body first aimed
      split at ran
      · rename_i moved
        exact ih ran (between.alters (.advance moved))
      · cases ran
        exact ⟨between, blamed⟩
    · exact body ran aimed

theorem prepend_aimed {value : α} {rest : Outcome (List α) × Context} {outcome : Outcome (List α)}
    {after : Context} (same : prepend value rest = (outcome, after))
    (aimed : rest.2.Aimed Fine ∧ rest.1.Aimed Fine) :
    after.Aimed Fine ∧ outcome.Aimed Fine := by
  obtain ⟨ended, last⟩ := rest
  cases same
  refine ⟨aimed.1, ?_⟩
  cases ended with
  | failed r => exact aimed.2
  | ok | stuck => trivial

theorem runMany_aims (body : Aims Fine run) (fuel : Nat) : Aims Fine (runMany run fuel) := by
  induction fuel with
  | zero =>
    intro ctx after outcome ran aimed
    cases ran
    exact ⟨aimed, trivial⟩
  | succ fuel ih =>
    intro ctx after outcome ran aimed
    simp only [runMany] at ran
    split at ran
    · cases ran
      exact ⟨aimed, trivial⟩
    · split at ran
      · rename_i first
        exact prepend_aimed ran (ih rfl (body first aimed).1)
      · rename_i first
        obtain ⟨between, blamed⟩ := body first aimed
        split at ran <;> cases ran
        · exact ⟨between, blamed⟩
        · exact ⟨between, trivial⟩
      · rename_i first
        cases ran
        exact ⟨(body first aimed).1, trivial⟩

theorem runManyUntil_aims {stop : Runner β} (body : Aims Fine run) (stops : Aims Fine stop)
    (fuel : Nat) : Aims Fine (runManyUntil run stop fuel) := by
  induction fuel with
  | zero =>
    intro ctx after outcome ran aimed
    cases ran
    exact ⟨aimed, trivial⟩
  | succ fuel ih =>
    intro ctx after outcome ran aimed
    simp only [runManyUntil] at ran
    split at ran
    · rename_i ended
      cases ran
      exact ⟨(stops ended aimed).1, trivial⟩
    · rename_i ended
      cases ran
      exact ⟨(stops ended aimed).1, trivial⟩
    · rename_i missing
      obtain ⟨between, blamed⟩ := stops missing aimed
      split at ran
      · cases ran
        exact ⟨between, blamed⟩
      · split at ran
        · rename_i first
          exact prepend_aimed ran (ih rfl (body first between).1)
        · rename_i first
          obtain ⟨last, blamed'⟩ := body first between
          cases ran
          refine ⟨last, ?_⟩
          simp only [Outcome.Aimed]
          split
          · exact blamed'
          · exact mostRelevant_fine blamed blamed'
        · rename_i first
          cases ran
          exact ⟨(body first between).1, trivial⟩

theorem runSeparated_aims {delimiter : Runner β} (body : Aims Fine run)
    (between : Aims Fine delimiter) (fuel : Nat) : Aims Fine (runSeparated run delimiter fuel) := by
  induction fuel with
  | zero =>
    intro ctx after outcome ran aimed
    cases ran
    exact ⟨aimed, trivial⟩
  | succ fuel ih =>
    intro ctx after outcome ran aimed
    simp only [runSeparated] at ran
    split at ran
    · rename_i first
      obtain ⟨further, blamed⟩ := body first aimed
      split at ran <;> cases ran
      · exact ⟨further, trivial⟩
      · exact ⟨further, blamed⟩
    · rename_i first
      cases ran
      exact ⟨(body first aimed).1, trivial⟩
    · rename_i first
      have further := (body first aimed).1
      split at ran
      · rename_i next
        exact prepend_aimed ran (ih rfl (between next further).1)
      · rename_i next
        obtain ⟨last, blamed⟩ := between next further
        split at ran <;> cases ran
        · exact ⟨last, trivial⟩
        · exact ⟨last, blamed⟩
      · rename_i next
        cases ran
        exact ⟨(between next further).1, trivial⟩

theorem runChain_aims {operator : Runner β} {combine : α → β → α → α} (term : Aims Fine run)
    (between : Aims Fine operator) (fuel : Nat) (left : α) :
    Aims Fine (runChain run operator combine fuel left) := by
  induction fuel generalizing left with
  | zero =>
    intro ctx after outcome ran aimed
    cases ran
    exact ⟨aimed, trivial⟩
  | succ fuel ih =>
    intro ctx after outcome ran aimed
    simp only [runChain] at ran
    split at ran
    · rename_i joined
      obtain ⟨further, blamed⟩ := between joined aimed
      split at ran <;> cases ran
      · exact ⟨further, blamed⟩
      · exact ⟨further, trivial⟩
    · rename_i joined
      cases ran
      exact ⟨(between joined aimed).1, trivial⟩
    · rename_i joined
      have further := (between joined aimed).1
      split at ran
      · rename_i read
        exact ih _ ran (term read further).1
      · exact term ran further

theorem marked_aims {finish : Bookmark → Outcome α → Runner α} (body : Aims Fine run)
    (finishes : ∀ mark {outcome}, outcome.Aimed Fine → Aims Fine (finish mark outcome)) :
    Aims Fine (marked run finish) := by
  intro ctx after outcome ran aimed
  cases ran
  obtain ⟨between, blamed⟩ := body rfl (aimed.alters .bookmark)
  obtain ⟨last, ended⟩ := finishes _ blamed rfl between
  exact ⟨last.alters .discard, ended⟩

theorem rewind_aims (mark : Bookmark) {next : Runner α} (later : Aims Fine next) :
    Aims Fine fun ctx => ctx.rewind mark next := by
  intro ctx after outcome ran aimed
  simp only [Context.rewind] at ran
  split at ran
  · rename_i back
    exact later ran (aimed.alters (.rewind back))
  · cases ran
    exact ⟨aimed, trivial⟩

/-- A parser blames what its reader stands at, and hands on what its parts blame, if this is so
for the rules. -/
theorem runWith_aims {rules : ∀ {γ : Type}, Rule γ → Runner γ}
    (called : ∀ {γ : Type} (rule : Rule γ), Aims Fine (rules rule)) (loops : Nat)
    (p : Parser Rule α) : Aims Fine (p.runWith rules loops) := by
  induction p with
  | token kind => exact runToken_aims kind
  | succeed =>
    intro ctx after outcome ran aimed
    cases ran
    exact ⟨aimed, trivial⟩
  | fail kind =>
    intro ctx after outcome ran aimed
    cases ran
    exact ⟨aimed, aimed.reader.selection⟩
  | finish => exact runFinish_aims
  | bind first next ihf ihn =>
    intro ctx after outcome ran aimed
    simp only [runWith] at ran
    split at ran
    · rename_i read
      exact ihn _ ran (ihf read aimed).1
    · rename_i read
      cases ran
      exact ihf read aimed
    · rename_i read
      cases ran
      exact ihf read aimed
  | orElse first second ihf ihs => exact runOrElse_aims ihf ihs
  | withKind body kind ih =>
    intro ctx after outcome ran aimed
    simp only [runWith] at ran
    split at ran
    · rename_i read
      obtain ⟨between, blamed⟩ := ih read aimed
      cases ran
      exact ⟨between, blamed⟩
    · exact ih ran aimed
  | recover body fallback ihb ihf =>
    intro ctx after outcome ran aimed
    simp only [runWith] at ran
    split at ran
    · rename_i failed
      obtain ⟨between, blamed⟩ := ihb failed aimed
      exact ihf ran (between.record blamed)
    · exact ihb ran aimed
  | attempt body ih =>
    refine marked_aims ih fun mark outcome blamed => ?_
    cases outcome with
    | failed r =>
      refine rewind_aims mark fun ctx after outcome ran aimed => ?_
      cases ran
      exact ⟨aimed, blamed⟩
    | ok | stuck =>
      intro ctx after outcome ran aimed
      cases ran
      exact ⟨aimed, trivial⟩
  | lookahead body ih =>
    refine marked_aims ih fun mark outcome _ => ?_
    refine rewind_aims mark fun ctx after ended ran aimed => ?_
    -- The reader is back at the start, which is blamed in place of what the body met.
    cases outcome with
    | failed r =>
      cases ran
      exact ⟨aimed, aimed.reader.selection⟩
    | ok | stuck =>
      cases ran
      exact ⟨aimed, trivial⟩
  | skipUntil body ih => exact runSkipUntil_aims ih loops
  | many body ih => exact runMany_aims ih loops
  | manyUntil body stop ihb ihs => exact runManyUntil_aims ihb ihs loops
  | separated body delimiter ihb ihd => exact runSeparated_aims ihb ihd loops
  | chain term operator combine iht iho =>
    intro ctx after outcome ran aimed
    simp only [runWith] at ran
    split at ran
    · rename_i read
      exact runChain_aims iht iho loops _ ran (iht read aimed).1
    · exact iht ran aimed
  | call rule => exact called rule

end Parser

namespace Grammar

variable {Rule : Type → Type} {α : Type}

theorem runRule_aims (grammar : Grammar Rule) (loops depth : Nat) (rule : Rule α) :
    Aims Fine (grammar.runRule loops depth rule) := by
  induction depth generalizing α with
  | zero =>
    intro ctx after outcome ran aimed
    cases ran
    exact ⟨aimed, trivial⟩
  | succ depth ih => exact Parser.runWith_aims ih loops (grammar rule)

/-- All that is reported on lexemes has the property, if these have it. -/
theorem parse_aimed (grammar : Grammar Rule) (fuel : Nat) (p : Parser Rule α)
    {lexemes : List Lexeme} (origin : Fine (.char .first))
    (lexed : ∀ x ∈ lexemes, Fine x.selection ∧ Fine (.char x.next)) :
    ∀ r ∈ (grammar.parse fuel p lexemes).reports, Fine r.selection := by
  have begun : (Context.start lexemes).Aimed Fine := by
    have reader : Reader.Aimed Fine ⟨0, lexemes, .first, [], 0, 0, [], 0⟩ :=
      ⟨List.forall_mem_nil _, lexed, origin⟩
    obtain ⟨reader, strays⟩ := reader.fill
    exact ⟨reader, List.forall_mem_map.mpr strays⟩
  have aims : Aims Fine (p.runWith (fun r => runRule grammar fuel fuel r) fuel) :=
    Parser.runWith_aims (runRule_aims grammar fuel fuel) fuel p
  simp only [parse, run]
  split
  · rename_i ran
    have aimed := (aims ran begun).1
    split
    · exact aimed.reports
    · rename_i t current
      have last := aimed.record (r := Parser.trailing t) (aimed.reader.current current)
      exact List.forall_mem_append.mpr
        ⟨last.reports, List.forall_mem_map.mpr (last.reader.advanceMany _)⟩
  · rename_i ran
    obtain ⟨aimed, blamed⟩ := aims ran begun
    exact (aimed.record blamed).reports
  · rename_i ran
    exact (aims ran begun).1.reports

end Grammar
end Statecraft
