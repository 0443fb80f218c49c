import Mathlib.Logic.Relation
import Statecraft.Proofs.Subruns

/-! Progress. Where every round of a loop and every rule that is called lies behind what it
belongs to, a run is completed: the loops go round and the rules are nested no more often than
there are tokens. Both are read off the parsers: a loop moves on because a part of its round
gains a token, and a rule is called only behind a part that does. -/
namespace Statecraft

/-- Every success that starts at the index ends behind it. -/
def Gains {α : Type} (tape : Tape) (start : Nat) (run : Runner α) : Prop :=
  ∀ ⦃ctx after : Context⦄ ⦃marks : List Bookmark⦄ ⦃value : α⦄, ctx.On tape marks →
    ctx.reader.cursor = start → run ctx = (.ok value, after) → start < after.reader.cursor

namespace Parser

variable {Rule : Type → Type} {rules : ∀ {γ : Type}, Rule γ → Runner γ} {loops : Nat} {tape : Tape}
  {marks : List Bookmark} {α β : Type} {p : Parser Rule α} {q : Parser Rule β} {start : Nat}
  {ctx there : Context}

/-- What a choice keeps is kept by a choice of many. -/
theorem oneOf_induction {motive : Parser Rule α → Prop}
    (choice : ∀ p q, motive p → motive q → motive (p.orElse q)) {first : Parser Rule α}
    {others : List (Parser Rule α)} (here : motive first) (there : ∀ p ∈ others, motive p) :
    motive (oneOf first others) := by
  induction others generalizing first with
  | nil => exact here
  | cons p more ih =>
    obtain ⟨next, later⟩ := List.forall_mem_cons.mp there
    exact ih (choice first p here next) later

theorem anyToken_induction {motive : Parser Rule Token → Prop} (tokens : ∀ kind, motive (token kind))
    (choice : ∀ p q, motive p → motive q → motive (p.orElse q)) (first : TokenKind)
    (others : List TokenKind) : motive (anyToken first others) := by
  apply oneOf_induction choice (tokens first)
  intro p member
  obtain ⟨kind, -, rfl⟩ := List.mem_map.mp member
  exact tokens kind

theorem token_gains (kind : TokenKind) :
    Gains tape start ((token kind : Parser Rule Token).runWith rules loops) := by
  intro ctx after marks value on here read
  simp only [runWith, runToken] at read
  cases found : ctx.reader.current? with
  | none => simp [found] at read
  | some t =>
    have current := on.keeps.current?
    rw [found] at current
    obtain ⟨next, moved, -, cursor⟩ := on.advance (List.getElem?_eq_some_iff.mp current.symm).1
    simp only [found, moved, Option.getD_some] at read
    split at read
    · cases read
      omega
    · cases read

theorem token_succeeds (on : ctx.On tape marks) (kind : TokenKind) :
    (∃ value after, (token kind : Parser Rule Token).runWith rules loops ctx = (.ok value, after)) ↔
      tape.tokens[ctx.reader.cursor]?.map Token.kind = some kind := by
  rw [← on.keeps.current?]
  simp only [runWith, runToken]
  cases ctx.reader.current? with
  | none => simp
  | some t => by_cases same : t.kind = kind <;> simp [same]

theorem finish_gains (more : start < tape.tokens.length) :
    Gains tape start ((finish : Parser Rule Unit).runWith rules loops) := by
  intro ctx after marks value on here read
  have current := on.keeps.current?
  rw [here, List.getElem?_eq_getElem more] at current
  simp [runWith, runFinish, current] at read

section Gaining

variable (commits : ∀ {γ : Type} (rule : Rule γ), Commits tape (rules rule))
include commits

theorem bind_gains {next : α → Parser Rule β} (gains : Gains tape start (p.runWith rules loops)) :
    Gains tape start ((p.bind next).runWith rules loops) := by
  intro ctx after marks value on here read
  simp only [runWith] at read
  rcases first : p.runWith rules loops ctx with ⟨value | r | cause, mid⟩
  all_goals
    simp only [first] at read
  · have on' := (on_of_run commits on first).1
    exact Nat.lt_of_lt_of_le (gains on here first) (on_of_run commits on' read).2
  · cases read
  · cases read

theorem orElse_gains {p q : Parser Rule α} (first : Gains tape start (p.runWith rules loops))
    (second : Gains tape start (q.runWith rules loops)) :
    Gains tape start ((p.orElse q).runWith rules loops) := by
  intro ctx after marks value on here read
  simp only [runWith, runOrElse] at read
  rcases tried : p.runWith rules loops ctx with ⟨value | r | cause, mid⟩
  all_goals
    simp only [tried] at read
  · cases read
    exact first on here tried
  · cases moved : progressed ctx.reader.location r with
    | true => simp [moved] at read
    | false =>
      -- A refusal has not moved the reader, so the second is tried from the same index.
      obtain ⟨on', same⟩ := (Tries.second (q := q) tried moved).same commits on
      simp only [moved, Bool.false_eq_true, if_false] at read
      rcases next : q.runWith rules loops mid with ⟨value | r | cause, last⟩
      all_goals
        simp only [next] at read
      · cases read
        exact second on' (same.trans here) next
      · cases read
      · cases read
  · cases read

theorem recover_gains {p q : Parser Rule α} (first : Gains tape start (p.runWith rules loops))
    (second : Gains tape start (q.runWith rules loops)) :
    Gains tape start ((p.recover q).runWith rules loops) := by
  intro ctx after marks value on here read
  simp only [runWith] at read
  rcases tried : p.runWith rules loops ctx with ⟨value | r | cause, mid⟩
  all_goals
    simp only [tried] at read
  · cases read
    exact first on here tried
  · -- Either the failure has consumed tokens itself, or the fallback starts at the index.
    obtain ⟨on', forward⟩ := on_of_run commits on tried
    rcases Nat.eq_or_lt_of_le (here ▸ forward) with same | further
    · exact second (on'.record r) same.symm read
    · exact Nat.lt_of_lt_of_le further (on_of_run commits (on'.record r) read).2
  · cases read

/-- Each token that is skipped is a gain. -/
theorem skipUntil_gains (gains : Gains tape start (p.runWith rules loops)) :
    Gains tape start (p.skipUntil.runWith rules loops) := by
  intro ctx after marks value on here read
  simp only [runWith] at read
  rcases loops with _ | fuel
  · cases read
  · rcases tried : p.runWith rules (fuel + 1) ctx with ⟨value | r | cause, mid⟩
    all_goals
      simp only [runSkipUntil, tried] at read
    · cases read
      exact gains on here tried
    · cases moved : mid.advance? with
      | none => simp [moved] at read
      | some next =>
        obtain ⟨on', forward⟩ := on_of_run commits on tried
        obtain ⟨on'', cursor⟩ := on'.of_advance moved
        have lands := runSkipUntil_commits (runWith_commits commits (fuel + 1) p) fuel on''
        simp only [moved] at read
        rw [read] at lands
        cases lands with
        | ok _ further => omega
    · cases read

theorem lookahead_succeeds (on : ctx.On tape marks) :
    (∃ value after, p.lookahead.runWith rules loops ctx = (.ok value, after)) ↔
      ∃ value after, p.runWith rules loops { ctx with reader := ctx.reader.bookmark.2 } =
        (.ok value, after) := by
  have lands := runWith_commits commits loops p on.bookmark.1
  simp only [runWith, marked]
  generalize p.runWith rules loops _ = result at *
  cases lands with
  | stuck there | ok there | failed there =>
    obtain ⟨earlier, same, -⟩ := there.rewind on.inside
    rw [same]
    simp

theorem lookahead_token_succeeds (on : ctx.On tape marks) {kind : TokenKind} :
    (∃ value after, (token kind : Parser Rule Token).lookahead.runWith rules loops ctx =
        (.ok value, after)) ↔
      tape.tokens[ctx.reader.cursor]?.map Token.kind = some kind :=
  (lookahead_succeeds commits on).trans (token_succeeds on.bookmark.1 kind)

theorem lookahead_gains {kind : TokenKind}
    (other : tape.tokens[start]?.map Token.kind ≠ some kind) :
    Gains tape start ((token kind : Parser Rule Token).lookahead.runWith rules loops) := by
  intro ctx after marks value on here read
  exact absurd ((lookahead_token_succeeds commits on).mp ⟨value, after, read⟩) (here ▸ other)

theorem anyToken_gains (first : TokenKind) (others : List TokenKind) :
    Gains tape start ((anyToken first others : Parser Rule Token).runWith rules loops) :=
  anyToken_induction (motive := fun p => Gains tape start (p.runWith rules loops)) token_gains
    (fun _ _ => orElse_gains commits) first others

theorem skipUntil_drives : Drives rules loops tape p.skipUntil := by
  intro a b marks on turns
  obtain ⟨r, mid, failed, moved⟩ := turns
  obtain ⟨on', forward⟩ := on_of_run commits on failed
  obtain ⟨-, cursor⟩ := on'.of_advance moved
  omega

omit commits in
theorem many_drives (gains : ∀ i < tape.tokens.length, Gains tape i (p.runWith rules loops)) :
    Drives rules loops tape p.many := by
  intro a b marks on turns
  obtain ⟨more, value, read⟩ := turns
  refine gains _ ?_ on rfl read
  rwa [← Nat.not_le, ← on.keeps.atEnd, Bool.not_eq_true]

/-- The element may count on what made the stop fail. -/
theorem manyUntil_drives (gains : ∀ {a r mid marks}, a.On tape marks →
      q.runWith rules loops a = (.failed r, mid) → a.reader.cursor < tape.tokens.length →
      Gains tape a.reader.cursor (p.runWith rules loops)) :
    Drives rules loops tape (p.manyUntil q) := by
  intro a b marks on turns
  obtain ⟨r, mid, value, refused, unmoved, more, read⟩ := turns
  obtain ⟨on', same⟩ := (Tries.element (p := p) refused unmoved more).same commits on
  refine gains on refused ?_ on' same read
  rwa [← same, ← Nat.not_le, ← on'.keeps.atEnd, Bool.not_eq_true]

theorem separated_drives (gains : ∀ i, Gains tape i (q.runWith rules loops)) :
    Drives rules loops tape (p.separated q) := by
  intro a b marks on turns
  obtain ⟨value, between, mid, read, delimited⟩ := turns
  obtain ⟨on', forward⟩ := on_of_run commits on read
  exact Nat.lt_of_le_of_lt forward (gains _ on' rfl delimited)

theorem chain_drives {combine : α → β → α → α}
    (gains : ∀ i, Gains tape i (q.runWith rules loops)) :
    Drives rules loops tape (p.chain q combine) := by
  intro a b marks on turns
  obtain ⟨op, value, mid, operated, read⟩ := turns
  obtain ⟨on', -⟩ := on_of_run commits on operated
  exact Nat.lt_of_lt_of_le (gains _ on rfl operated) (on_of_run commits on' read).2

end Gaining

section Shape

variable (rules : ∀ {γ : Type}, Rule γ → Runner γ) (loops : Nat) (tape : Tape)

/-- All loops of the parser move on with each round. -/
def Brisk : {α : Type} → Parser Rule α → Prop
  | _, .bind first next => Brisk first ∧ ∀ value, Brisk (next value)
  | _, .orElse first second => Brisk first ∧ Brisk second
  | _, .recover body fallback => Brisk body ∧ Brisk fallback
  | _, .withKind body _ | _, .attempt body | _, .lookahead body => Brisk body
  | _, .skipUntil body => Drives rules loops tape body.skipUntil ∧ Brisk body
  | _, .many body => Drives rules loops tape body.many ∧ Brisk body
  | _, .manyUntil body stop =>
      Drives rules loops tape (body.manyUntil stop) ∧ Brisk body ∧ Brisk stop
  | _, .separated body delimiter =>
      Drives rules loops tape (body.separated delimiter) ∧ Brisk body ∧ Brisk delimiter
  | _, .chain term operator combine =>
      Drives rules loops tape (term.chain operator combine) ∧ Brisk term ∧ Brisk operator
  | _, .token _ | _, .succeed _ | _, .fail _ | _, .finish | _, .call _ => True

/-- The parser calls no rule where it starts. -/
def Guarded : {α : Type} → Parser Rule α → Prop
  | _, .bind first next => Guarded first ∧
      ((∀ i, Gains tape i (first.runWith rules loops)) ∨ ∀ value, Guarded (next value))
  | _, .orElse first second => Guarded first ∧ Guarded second
  | _, .recover body fallback => Guarded body ∧ Guarded fallback
  | _, .withKind body _ | _, .attempt body | _, .lookahead body | _, .skipUntil body
  | _, .many body => Guarded body
  | _, .manyUntil body stop => Guarded body ∧ Guarded stop
  | _, .separated body delimiter => Guarded body ∧ Guarded delimiter
  | _, .chain term operator _ => Guarded term ∧ Guarded operator
  | _, .token _ | _, .succeed _ | _, .fail _ | _, .finish => True
  | _, .call _ => False

end Shape

theorem Starts.brisk (starts : Starts rules loops p ctx q there) (brisk : Brisk rules loops tape p) :
    Brisk rules loops tape q := by
  cases starts with
  | tried _ tries =>
    cases tries with
    | first => exact brisk.1
    | second | target | item => exact brisk.2
    | element | entry => exact brisk.2.1
    | stop | operator => exact brisk.2.2
  | first | recovered => exact brisk.1
  | next => exact brisk.2 _
  | fallback => exact brisk.2
  | renamed | attempted | ahead => exact brisk
  | delimiter => exact brisk.2.2
  | term | operand => exact brisk.2.1

theorem Starts.guarded (starts : Starts rules loops p ctx q there) (on : ctx.On tape marks)
    (guarded : Guarded rules loops tape p) :
    Guarded rules loops tape q ∨ ctx.reader.cursor < there.reader.cursor := by
  cases starts with
  | next read =>
    rcases guarded.2 with gains | guarded
    · exact .inr (gains _ on rfl read)
    · exact .inl (guarded _)
  | tried _ tries =>
    left
    cases tries with
    | first | element | entry => exact guarded.1
    | second | stop | operator => exact guarded.2
    | target | item => exact guarded
  | first | recovered | term | operand => exact .inl guarded.1
  | fallback | delimiter => exact .inl guarded.2
  | renamed | attempted | ahead => exact .inl guarded

theorem Starts.not_call {rule : Rule α} : ¬ Starts rules loops (.call rule) ctx q there := by
  intro starts
  generalize same : Parser.call rule = p at starts
  cases starts with
  | tried _ tries => cases tries <;> cases same
  | _ => cases same

theorem Brisk.drives (brisk : Brisk rules loops tape p) : Drives rules loops tape p := by
  cases p with
  | skipUntil | many | manyUntil | separated | chain => exact brisk.1
  | _ => exact fun _ _ _ _ turns => turns.elim

end Parser

/-- The run of a parser in the course of another run, and how deep rules may be nested in it. -/
structure Site (Rule : Type → Type) where
  {Value : Type}
  depth : Nat
  parser : Parser Rule Value
  context : Context

inductive Site.Entry {Rule : Type → Type} : Site Rule → Prop where
  | call {α : Type} {depth : Nat} {rule : Rule α} {ctx : Context} : Entry ⟨depth, .call rule, ctx⟩

namespace Grammar

variable {Rule : Type → Type}

section Reaching

variable (grammar : Grammar Rule) (loops : Nat)

/-- The run at one site starts the run at another one: of a part of its parser, or of what
the rule stands for that it calls. -/
inductive Enters : Site Rule → Site Rule → Prop where
  | part {α β : Type} {depth : Nat} {p : Parser Rule α} {q : Parser Rule β} {ctx there : Context}
      (starts : p.Starts (fun rule => grammar.runRule loops depth rule) loops ctx q there) :
      Enters ⟨depth, p, ctx⟩ ⟨depth, q, there⟩
  | call {α : Type} {depth : Nat} {rule : Rule α} {ctx : Context} :
      Enters ⟨depth + 1, .call rule, ctx⟩ ⟨depth, grammar rule, ctx⟩

/-- Some site in the course of the run at another one. -/
abbrev Reaches : Site Rule → Site Rule → Prop := Relation.ReflTransGen (grammar.Enters loops)

/-- The loops of every rule move on, and no rule calls one where it starts itself. -/
structure Progressive (tape : Tape) : Prop where
  brisk : ∀ (depth : Nat) {α : Type} (rule : Rule α),
    Parser.Brisk (fun rule => grammar.runRule loops depth rule) loops tape (grammar rule)
  guarded : ∀ (depth : Nat) {α : Type} (rule : Rule α),
    Parser.Guarded (fun rule => grammar.runRule loops depth rule) loops tape (grammar rule)

end Reaching

variable {grammar : Grammar Rule} {loops : Nat} {tape : Tape} {site later : Site Rule}

theorem runRule_succ (depth : Nat) {α : Type} (rule : Rule α) :
    grammar.runRule loops (depth + 1) rule =
      (grammar rule).runWith (fun rule => grammar.runRule loops depth rule) loops := rfl

theorem Enters.on (enters : grammar.Enters loops site later)
    (on : ∃ marks, site.context.On tape marks) : (∃ marks, later.context.On tape marks) ∧
      site.context.reader.cursor ≤ later.context.reader.cursor := by
  cases enters with
  | part starts =>
    obtain ⟨marks, on⟩ := on
    exact starts.on (grammar.runRule_commits loops _) on
  | call => exact ⟨on, Nat.le_refl _⟩

theorem Reaches.on (reaches : grammar.Reaches loops site later)
    (on : ∃ marks, site.context.On tape marks) : (∃ marks, later.context.On tape marks) ∧
      site.context.reader.cursor ≤ later.context.reader.cursor := by
  induction reaches with
  | refl => exact ⟨on, Nat.le_refl _⟩
  | tail _ enters ih =>
    obtain ⟨on', forward⟩ := ih
    obtain ⟨on'', further⟩ := enters.on on'
    exact ⟨on'', Nat.le_trans forward further⟩

/-- As long as nothing is gained, no rule is called. -/
theorem Reaches.guarded (reaches : grammar.Reaches loops site later)
    (on : ∃ marks, site.context.On tape marks)
    (guarded : site.parser.Guarded (fun rule => grammar.runRule loops site.depth rule) loops tape) :
    later.parser.Guarded (fun rule => grammar.runRule loops later.depth rule) loops tape ∨
      site.context.reader.cursor < later.context.reader.cursor := by
  induction reaches with
  | refl => exact .inl guarded
  | tail reaches enters ih =>
    obtain ⟨on', forward⟩ := Reaches.on reaches on
    rcases ih with guarded | gained
    · cases enters with
      | part starts =>
        obtain ⟨marks, on'⟩ := on'
        exact (starts.guarded on' guarded).imp_right (Nat.lt_of_le_of_lt forward)
      | call => exact guarded.elim
    · -- What is behind the start stays behind it, whatever rules are called.
      exact .inr (Nat.lt_of_lt_of_le gained (enters.on on').2)

/-- What a run needs besides the fuel for its loops: it starts on the tape, its loops move on,
and the rules it calls are completed. -/
structure Ready (grammar : Grammar Rule) (loops : Nat) (tape : Tape) (depth : Nat) {α : Type}
    (p : Parser Rule α) (ctx : Context) : Prop where
  on : ∃ marks, ctx.On tape marks
  brisk : p.Brisk (fun rule => grammar.runRule loops depth rule) loops tape
  calls : ∀ {β : Type} {rule : Rule β} {there : Context},
    grammar.Reaches loops ⟨depth, p, ctx⟩ ⟨depth, .call rule, there⟩ →
    Parser.Settles (grammar.runRule loops depth rule) there

theorem Ready.of_starts {depth : Nat} {α β : Type} {p : Parser Rule α} {q : Parser Rule β}
    {ctx there : Context} (ready : grammar.Ready loops tape depth p ctx)
    (starts : p.Starts (fun rule => grammar.runRule loops depth rule) loops ctx q there) :
    grammar.Ready loops tape depth q there where
  on := (Enters.on (.part starts) ready.on).1
  brisk := starts.brisk ready.brisk
  calls reaches := ready.calls (.head (.part starts) reaches)

/-- With more rounds to go than there are tokens, every parser that is ready is completed. -/
theorem Ready.settles (enough : tape.tokens.length < loops) {depth : Nat} {α : Type}
    {p : Parser Rule α} {ctx : Context} (ready : grammar.Ready loops tape depth p ctx) :
    Parser.Settles (p.runWith (fun rule => grammar.runRule loops depth rule) loops) ctx := by
  have commits {γ : Type} (rule : Rule γ) : Commits tape (grammar.runRule loops depth rule) :=
    grammar.runRule_commits loops depth rule
  induction p generalizing ctx with
  | token kind =>
    simp only [Parser.Settles, Parser.runWith, Parser.runToken]
    repeat' split
    all_goals
      exact trivial
  | succeed | fail => exact trivial
  | finish =>
    simp only [Parser.Settles, Parser.runWith, Parser.runFinish]
    split <;> exact trivial
  | bind first next ihf ihn =>
    apply Parser.bind_settles (ihf (ready.of_starts .first))
    intro value mid read
    exact ihn value (ready.of_starts (.next read))
  | orElse first second ihf ihs =>
    apply Parser.orElse_settles (ihf (ready.of_starts (.tried .orElse .first)))
    intro r mid refused unmoved
    exact ihs (ready.of_starts (.tried .orElse (.second refused unmoved)))
  | withKind body kind ih => exact Parser.withKind_settles kind (ih (ready.of_starts .renamed))
  | recover body fallback ihb ihf =>
    apply Parser.recover_settles (ihb (ready.of_starts .recovered))
    intro r mid failed
    exact ihf (ready.of_starts (.fallback failed))
  | attempt body ih =>
    obtain ⟨marks, on⟩ := ready.on
    exact Parser.attempt_settles commits on (ih (ready.of_starts .attempted))
  | lookahead body ih =>
    obtain ⟨marks, on⟩ := ready.on
    exact Parser.lookahead_settles commits on (ih (ready.of_starts .ahead))
  | skipUntil body ih =>
    obtain ⟨marks, on⟩ := ready.on
    apply Parser.skipUntil_settles commits enough on ready.brisk.drives
    intro a begins
    exact ih (ready.of_starts (.tried begins .target))
  | many body ih =>
    obtain ⟨marks, on⟩ := ready.on
    apply Parser.many_settles commits enough on ready.brisk.drives
    intro a begins more
    exact ih (ready.of_starts (.tried begins (.item more)))
  | manyUntil body stop ihb ihs =>
    obtain ⟨marks, on⟩ := ready.on
    apply Parser.manyUntil_settles commits enough on ready.brisk.drives
    · intro a begins
      exact ihs (ready.of_starts (.tried begins .stop))
    · intro a r mid begins refused unmoved more
      exact ihb (ready.of_starts (.tried begins (.element refused unmoved more)))
  | separated body delimiter ihb ihd =>
    obtain ⟨marks, on⟩ := ready.on
    apply Parser.separated_settles commits enough on ready.brisk.drives
    · intro a begins
      exact ihb (ready.of_starts (.tried begins .entry))
    · intro a value mid begins read
      exact ihd (ready.of_starts (.delimiter begins read))
  | chain term operator combine iht iho =>
    obtain ⟨marks, on⟩ := ready.on
    apply Parser.chain_settles commits enough on ready.brisk.drives
    · exact iht (ready.of_starts .term)
    · intro a begins
      exact iho (ready.of_starts (.tried begins .operator))
    · intro a op mid begins operated
      exact iht (ready.of_starts (.operand begins operated))
  | call rule => exact ready.calls .refl

namespace Progressive

variable (progressive : grammar.Progressive loops tape)
include progressive

theorem brisk_of_reaches (reaches : grammar.Reaches loops site later)
    (brisk : site.parser.Brisk (fun rule => grammar.runRule loops site.depth rule) loops tape) :
    later.parser.Brisk (fun rule => grammar.runRule loops later.depth rule) loops tape := by
  induction reaches with
  | refl => exact brisk
  | tail _ enters ih =>
    cases enters with
    | part starts => exact starts.brisk ih
    | call => exact progressive.brisk _ _

/-- A rule that is called in the course of another one is called later. -/
theorem entry_later (outer : site.Entry) (inner : later.Entry)
    (on : ∃ marks, site.context.On tape marks)
    (nested : Relation.TransGen (grammar.Enters loops) site later) :
    site.context.reader.cursor < later.context.reader.cursor := by
  obtain ⟨body, enters, reaches⟩ := Relation.TransGen.head'_iff.mp nested
  cases outer with
  | call =>
    cases enters with
    | part starts => exact absurd starts Parser.Starts.not_call
    | call =>
      have guarded := Reaches.guarded reaches on (progressive.guarded _ _)
      cases inner with
      | call => exact guarded.resolve_left id

/-- As a rule that is called is called later, there are no more calls in one another than
tokens. -/
theorem rule_settles (enough : tape.tokens.length < loops) {depth : Nat} {α : Type} (rule : Rule α)
    {ctx : Context} (on : ∃ marks, ctx.On tape marks)
    (deep : tape.tokens.length < ctx.reader.cursor + depth) :
    Parser.Settles (grammar.runRule loops depth rule) ctx := by
  induction depth generalizing α ctx with
  | zero =>
    obtain ⟨marks, on⟩ := on
    have inside := on.inside
    omega
  | succ depth ih =>
    rw [runRule_succ]
    refine Ready.settles enough ⟨on, progressive.brisk depth rule, ?_⟩
    intro β inner there reaches
    have further : ctx.reader.cursor < there.reader.cursor :=
      (Reaches.guarded reaches on (progressive.guarded depth rule)).resolve_left id
    exact ih inner (Reaches.on reaches on).1 (by omega)

theorem settles (enough : tape.tokens.length < loops) {α : Type} {p : Parser Rule α} {ctx : Context}
    (on : ∃ marks, ctx.On tape marks)
    (brisk : p.Brisk (fun rule => grammar.runRule loops loops rule) loops tape) :
    Parser.Settles (grammar.run loops p) ctx := by
  refine Ready.settles enough ⟨on, brisk, ?_⟩
  intro β rule there reaches
  exact progressive.rule_settles enough rule (Reaches.on reaches on).1 (by omega)

end Progressive
end Grammar
end Statecraft
