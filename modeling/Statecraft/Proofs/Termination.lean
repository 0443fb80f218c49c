import Statecraft.Grammar.Program
import Statecraft.Proofs.Progress

/-! Every text is parsed to its end. All loops of the grammar move on with each round, also
where they recover from an error: what is skipped up to a `}` is skipped only where no `}`
stands. Expressions and blocks contain others only behind a bracket. -/
namespace Statecraft

namespace Source.Grammar

open Statecraft.Parser

section Rules

variable {run : ∀ {γ : Type}, Rule γ → Runner γ} {loops : Nat} {tape : Tape} {p : Parser Rule Expr}
  (commits : ∀ {γ : Type} (rule : Rule γ), Commits tape (run rule))

theorem anyToken_brisk (first : TokenKind) (others : List TokenKind) :
    Brisk run loops tape (anyToken first others) :=
  anyToken_induction (fun _ => trivial) (fun _ _ => And.intro) first others

theorem anyToken_guarded (first : TokenKind) (others : List TokenKind) :
    Guarded run loops tape (anyToken first others) :=
  anyToken_induction (fun _ => trivial) (fun _ _ => And.intro) first others

theorem signed_brisk (operand : Brisk run loops tape p) (first : TokenKind)
    (others : List TokenKind) : Brisk run loops tape (signed p first others) :=
  ⟨⟨anyToken_brisk first others, fun _ => ⟨operand, fun _ => trivial⟩⟩, operand⟩

theorem signed_guarded (operand : Guarded run loops tape p) (first : TokenKind)
    (others : List TokenKind) : Guarded run loops tape (signed p first others) :=
  ⟨⟨anyToken_guarded first others, .inr fun _ => ⟨operand, .inr fun _ => trivial⟩⟩, operand⟩

theorem level_guarded (operand : Guarded run loops tape p) (first : TokenKind)
    (others : List TokenKind) : Guarded run loops tape (level p first others) :=
  ⟨operand, anyToken_guarded first others⟩

theorem expression_guarded : Guarded run loops tape expression := by
  have primary_guarded : Guarded run loops tape primary := by
    constructor
    · exact ⟨trivial, .inl fun _ => token_gains _⟩
    · simp [literal, recoverAs, oneOf, Parser.map, Guarded]
  have term_guarded : Guarded run loops tape term :=
    level_guarded (level_guarded (signed_guarded primary_guarded _ _) _ _) _ _
  have relation_guarded : Guarded run loops tape relation := by
    simp only [relation, Parser.optional, Parser.map, Guarded]
    refine ⟨term_guarded, .inr fun left => ⟨⟨anyToken_guarded _ _, .inr fun op => ?_⟩, trivial⟩⟩
    exact ⟨term_guarded, .inr fun _ => trivial⟩
  exact level_guarded (level_guarded (signed_guarded relation_guarded _ _) _ _) _ _

theorem block_guarded : Guarded run loops tape block := ⟨trivial, .inl fun _ => token_gains _⟩

include commits

theorem level_brisk (operand : Brisk run loops tape p) (first : TokenKind)
    (others : List TokenKind) : Brisk run loops tape (level p first others) :=
  ⟨chain_drives commits fun _ => anyToken_gains commits first others, operand,
    anyToken_brisk first others⟩

theorem expression_brisk : Brisk run loops tape expression := by
  have primary_brisk : Brisk run loops tape primary := by
    simp [primary, parenthesized, literal, recoverAs, oneOf, andThen, Parser.map, Parser.as, Brisk]
  have term_brisk : Brisk run loops tape term :=
    level_brisk commits (level_brisk commits (signed_brisk primary_brisk _ _) _ _) _ _
  have relation_brisk : Brisk run loops tape relation := by
    simp only [relation, Parser.optional, Parser.map, Brisk]
    refine ⟨term_brisk, fun left => ⟨⟨anyToken_brisk _ _, fun op => ?_⟩, trivial⟩⟩
    exact ⟨term_brisk, fun _ => trivial⟩
  exact level_brisk commits (level_brisk commits (signed_brisk relation_brisk _ _) _ _) _ _

theorem block_gains {i : Nat} : Gains tape i (block.runWith run loops) :=
  bind_gains commits (token_gains _)

theorem definition_gains {i : Nat} : Gains tape i (definition.runWith run loops) := by
  apply oneOf_induction (motive := fun p => Gains tape i (p.runWith run loops))
    (fun _ _ => orElse_gains commits)
  · exact bind_gains commits (token_gains _)
  · simp only [List.forall_mem_cons]
    refine ⟨?_, ?_, ?_, by simp⟩
    all_goals
      exact bind_gains commits (token_gains _)

/-- Before the end, what stands for a broken definition takes at least one token. -/
theorem recoveredDefinition_gains {i : Nat} (more : i < tape.tokens.length) :
    Gains tape i (recoveredDefinition.runWith run loops) := by
  apply recover_gains commits (bind_gains commits (definition_gains commits))
  apply bind_gains commits
  apply skipUntil_gains commits
  apply orElse_gains commits
  · exact bind_gains commits (anyToken_gains commits _ _)
  · exact finish_gains more

section Blocks

variable (nested : ∀ i, Gains tape i (run .block))
include nested

theorem action_gains {i : Nat} : Gains tape i (action.runWith run loops) := by
  apply oneOf_induction (motive := fun p => Gains tape i (p.runWith run loops))
    (fun _ _ => orElse_gains commits)
  · exact bind_gains commits (bind_gains commits (token_gains _))
  · simp only [List.forall_mem_cons]
    refine ⟨?_, ?_, ?_, ?_, by simp⟩
    · exact bind_gains commits (token_gains _)
    · exact bind_gains commits (token_gains _)
    · exact bind_gains commits (nested i)
    · exact bind_gains commits (bind_gains commits (bind_gains commits (token_gains _)))

/-- Where no `}` stands, what stands for a broken action takes at least one token. -/
theorem recoveredAction_gains {i : Nat}
    (other : tape.tokens[i]?.map Token.kind ≠ some .closeBrace) :
    Gains tape i (recoveredAction.runWith run loops) := by
  apply recover_gains commits (bind_gains commits (action_gains commits nested))
  apply bind_gains commits
  apply skipUntil_gains commits
  apply orElse_gains commits (bind_gains commits (token_gains _))
  exact bind_gains commits (lookahead_gains commits other)

theorem block_brisk : Brisk run loops tape block := by
  refine ⟨trivial, fun opening => ⟨⟨?_, ?_, trivial⟩, fun actions => ⟨trivial, fun _ => trivial⟩⟩⟩
  · apply manyUntil_drives commits
    intro a r mid marks on refused more
    -- The round began because the lookahead has failed, so no `}` stands here.
    apply recoveredAction_gains commits nested
    intro closing
    obtain ⟨value, after, read⟩ := (lookahead_token_succeeds commits on).mpr closing
    cases refused.symm.trans read
  · refine ⟨⟨?_, fun _ => trivial⟩, ⟨skipUntil_drives commits, ?_⟩, fun _ => trivial⟩
    · simp [action, transition, conditional, condition, assertion, assignment, assigned,
        statementValue, terminator, name, oneOf, Parser.optional, andThen, followedBy, Parser.map,
        Parser.as, Brisk]
    · simp [Parser.as, Parser.map, Brisk]

end Blocks

theorem stateList_brisk : Brisk run loops tape stateList := by
  have annotations : Drives run loops tape annotated.many :=
    many_drives fun _ _ => bind_gains commits (token_gains _)
  have entries : Drives run loops tape (stateEntry.separated (token .comma)) :=
    separated_drives commits fun _ => token_gains _
  simp only [stateList, andThen, Parser.map, Brisk]
  refine ⟨trivial, fun keyword => ⟨⟨trivial, fun _ => ⟨entries, ?_, trivial⟩⟩, by simp⟩⟩
  refine ⟨⟨annotations, ?_⟩, fun attributes => ?_⟩
  · simp [annotated, between, name, andThen, followedBy, Parser.map, Brisk]
  · simp [name, Parser.map, Brisk]

theorem program_brisk : Brisk run loops tape program := by
  refine ⟨⟨many_drives fun _ => recoveredDefinition_gains commits, ?_⟩, fun _ => trivial⟩
  refine ⟨⟨?_, fun _ => trivial⟩, ⟨skipUntil_drives commits, ?_⟩, fun _ => trivial⟩
  · apply oneOf_induction (motive := Brisk run loops tape) (fun _ _ => And.intro)
      (stateList_brisk commits)
    simp [declaration, whenBlock, assigned, statementValue, terminator, name, followedBy,
      Parser.map, Parser.as, Brisk]
  · exact ⟨⟨anyToken_brisk _ _, fun _ => trivial⟩, trivial⟩

end Rules

theorem runRule_block_gains (loops depth : Nat) {tape : Tape} {i : Nat} :
    Gains tape i (rules.runRule loops depth .block) := by
  cases depth with
  | zero =>
    intro ctx after marks value on here read
    cases read
  | succ depth =>
    rw [Statecraft.Grammar.runRule_succ]
    exact block_gains (rules.runRule_commits loops depth)

theorem rules_progressive (loops : Nat) (tape : Tape) : rules.Progressive loops tape where
  brisk depth _ rule := by
    cases rule with
    | expression => exact expression_brisk (rules.runRule_commits loops depth)
    | block =>
      exact block_brisk (rules.runRule_commits loops depth) fun _ => runRule_block_gains loops depth
  guarded depth _ rule := by
    cases rule with
    | expression => exact expression_guarded
    | block => exact block_guarded

end Source.Grammar

namespace Reader.Keeps

variable {tape : Tape} {r : Reader}

theorem advanceMany (keeps : r.Keeps tape) {n : Nat} (enough : tape.tokens.length ≤ r.cursor + n) :
    (Reader.advanceMany n r).2.1.atEnd = true := by
  induction n generalizing r with
  | zero => exact keeps.atEnd.mpr enough
  | succ n ih =>
    rcases Nat.lt_or_ge r.cursor tape.tokens.length with more | ended
    · obtain ⟨next, strays, moved, keeps', cursor, -⟩ := keeps.advance more
      simp only [Reader.advanceMany, moved]
      exact ih keeps' (by omega)
    · simp only [Reader.advanceMany, keeps.advance_end ended]
      exact keeps.atEnd.mpr ended

theorem drain (keeps : r.Keeps tape) : r.drain.1.atEnd = true := by
  apply keeps.advanceMany
  have length := congrArg List.length keeps.pulled
  have fewer := List.length_filterMap_le Lexeme.significant? r.pending
  have low := keeps.covers.1
  simp only [List.length_drop, List.length_append] at length
  omega

end Reader.Keeps

/-- The source is parsed to its end: the run returns, and the tokens it leaves can be read to
the last. Every round that is followed by another one has moved on, and a rule that is called
in the course of another one is called at a later token; so there are at most as many rounds of
a loop and as many calls in one another as tokens. -/
structure Grammar.Terminates {Rule : Type → Type} (grammar : Grammar Rule) (fuel : Nat) {α : Type}
    (p : Parser Rule α) (source : String) : Prop where
  returns : (grammar.run fuel p (.start (Lexeme.scan source))).1.Settled
  drains : (grammar.run fuel p (.start (Lexeme.scan source))).2.drain.reader.atEnd = true
  rounds : ∀ {site : Site Rule} {a b : Context},
    grammar.Reaches fuel ⟨fuel, p, .start (Lexeme.scan source)⟩ site →
    site.parser.Rounds (fun rule => grammar.runRule fuel site.depth rule) fuel site.context a →
    site.parser.Turns (fun rule => grammar.runRule fuel site.depth rule) fuel a b →
    a.reader.cursor < b.reader.cursor ∧ b.reader.cursor ≤ (significantTokens source).length
  calls : ∀ {outer inner : Site Rule},
    grammar.Reaches fuel ⟨fuel, p, .start (Lexeme.scan source)⟩ outer → outer.Entry → inner.Entry →
    Relation.TransGen (grammar.Enters fuel) outer inner →
    outer.context.reader.cursor < inner.context.reader.cursor ∧
      inner.context.reader.cursor ≤ (significantTokens source).length

theorem Context.start_on (source : String) :
    (Context.start (Lexeme.scan source)).On (.ofSource source) [] where
  keeps := Reader.start_keeps 0 source
  inside := by simp [Context.start, Reader.start]
  marks := by simp [Context.start, Reader.start]

theorem Grammar.Progressive.terminates {Rule : Type → Type} {grammar : Grammar Rule} {fuel : Nat}
    {source : String} (progressive : grammar.Progressive fuel (.ofSource source))
    (enough : (significantTokens source).length < fuel) {α : Type} {p : Parser Rule α}
    (brisk : p.Brisk (fun rule => grammar.runRule fuel fuel rule) fuel (.ofSource source)) :
    grammar.Terminates fuel p source where
  returns := progressive.settles enough ⟨_, Context.start_on source⟩ brisk
  drains := by
    have ends : (grammar.run fuel p (.start (Lexeme.scan source))).2.On (.ofSource source) [] :=
      (Parser.on_of_run (grammar.runRule_commits fuel fuel) (Context.start_on source) rfl).1
    exact ends.keeps.drain
  rounds := by
    intro site a b reaches begins turns
    have commits {γ : Type} (rule : Rule γ) : Commits (.ofSource source)
        (grammar.runRule fuel site.depth rule) := grammar.runRule_commits fuel site.depth rule
    obtain ⟨⟨marks, on⟩, -⟩ := Reaches.on reaches ⟨_, Context.start_on source⟩
    have on' := (begins.on commits on).1
    refine ⟨(progressive.brisk_of_reaches reaches brisk).drives on' turns, ?_⟩
    exact (turns.on commits on').1.inside
  calls := by
    intro outer inner reaches outside inside nested
    have on := (Reaches.on reaches ⟨_, Context.start_on source⟩).1
    obtain ⟨⟨marks, on'⟩, -⟩ := Reaches.on nested.to_reflTransGen on
    exact ⟨progressive.entry_later outside inside on nested, on'.inside⟩

/-- Every text is parsed to its end, as a program and as an expression, if one round and one
nested call more is allowed for than the text has tokens. -/
theorem Source.Grammar.parsing_terminates (source : String) (spare : Nat) :
    rules.Terminates (fuel (Lexeme.scan source) + spare) program source ∧
      rules.Terminates (fuel (Lexeme.scan source) + spare) (.call .expression) source := by
  have enough : (significantTokens source).length < fuel (Lexeme.scan source) + spare :=
    Nat.lt_of_lt_of_le (Nat.lt_succ_self _) (Nat.le_add_right _ _)
  have progressive := rules_progressive (fuel (Lexeme.scan source) + spare) (.ofSource source)
  constructor
  · apply progressive.terminates enough
    exact program_brisk (rules.runRule_commits _ _)
  · exact progressive.terminates enough trivial

end Statecraft
