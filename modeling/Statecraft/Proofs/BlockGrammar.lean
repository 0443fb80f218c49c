import Statecraft.Proofs.ExpressionParsing

/-! Blocks are read by their grammar, and so are the actions in them. Nothing malformed slips
through where a rule recovers or where a terminator may be missing. -/
namespace Statecraft.Source

open Phrase (Sequence)

mutual

/-- block = "{" action* "}" -/
inductive BlockPhrase : List Token → Block → Prop where
  | braces {used : List Token} {opening closing : Token} {actions : List Action}
      (opens : opening.kind = .openBrace) (acts : Sequence ActionPhrase used actions)
      (closes : closing.kind = .closeBrace) :
      BlockPhrase (opening :: (used ++ [closing])) (.braces opening.span actions closing.span)

inductive ActionPhrase : List Token → Action → Prop where
  -- "state" ":=" identifier ";"
  | transition {keyword assign target stop : Token} (states : keyword.kind = .stateWord)
      (assigns : assign.kind = .assign) (names : target.kind = .identifier)
      (stops : stop.kind = .semicolon) :
      ActionPhrase [keyword, assign, target, stop]
        (.transition keyword.span ⟨target.text, target.span⟩)
  -- identifier ":=" or ";"
  | assignment {target assign stop : Token} {used : List Token} {value : Expr}
      (names : target.kind = .identifier) (assigns : assign.kind = .assign)
      (derives : Derives .or used value) (stops : stop.kind = .semicolon) :
      ActionPhrase (target :: assign :: (used ++ [stop]))
        (.assignment ⟨target.text, target.span⟩ value)
  -- "if" or block ("else" block)?
  | conditional {keyword : Token} {used front : List Token} {test : Expr} {body : Block}
      (tests : keyword.kind = .ifWord) (derives : Derives .or used test)
      (encloses : BlockPhrase front body) :
      ActionPhrase (keyword :: (used ++ front)) (.conditional keyword.span test body none)
  | alternative {keyword word : Token} {used front back : List Token} {test : Expr}
      {body otherwise : Block} (tests : keyword.kind = .ifWord) (derives : Derives .or used test)
      (encloses : BlockPhrase front body) (switches : word.kind = .elseWord)
      (other : BlockPhrase back otherwise) :
      ActionPhrase (keyword :: (used ++ (front ++ word :: back)))
        (.conditional keyword.span test body (some otherwise))
  -- "assert" or ";"
  | assertion {keyword stop : Token} {used : List Token} {test : Expr}
      (asserts : keyword.kind = .assertWord) (derives : Derives .or used test)
      (stops : stop.kind = .semicolon) :
      ActionPhrase (keyword :: (used ++ [stop])) (.assertion keyword.span test)
  -- block
  | nested {used : List Token} {body : Block} (encloses : BlockPhrase used body) :
      ActionPhrase used (.nested body)

end

theorem ActionPhrase.opens {used : List Token} {action : Action} (acts : ActionPhrase used action) :
    ∃ t rest, used = t :: rest ∧
      t.kind ∈ [TokenKind.stateWord, .identifier, .ifWord, .assertWord, .openBrace] := by
  cases acts with
  | transition kind | assignment kind | conditional kind | alternative kind | assertion kind =>
    exact ⟨_, _, rfl, by simp [kind]⟩
  | nested encloses =>
    obtain ⟨kind, -, -⟩ := encloses
    exact ⟨_, _, rfl, by simp [kind]⟩

namespace Grammar

open Judge (Exact token_opens token_consumes)

structure Calls (bound : Nat) (rules : ∀ {γ : Type}, Rule γ → Judge γ) : Prop where
  shrinks : ∀ {γ : Type} (rule : Rule γ), (rules rule).Shrinks
  expression : (rules Rule.expression).Exact bound (Avoids Rung.or.continues) (Derives .or)
  block : (rules Rule.block).Exact bound (fun _ => True) BlockPhrase
  opens : (rules Rule.block).Opens bound [.openBrace]
  consumes : (rules Rule.block).Consumes

variable {rules : ∀ {γ : Type}, Rule γ → Judge γ} {loops bound : Nat} (Ends : List Token → Prop)

theorem terminator_exact : (terminator.judgeWith rules loops).Exact bound Ends
    fun used _ => ∃ t, used = [t] ∧ t.kind = .semicolon :=
  (Exact.token bound Ends .semicolon).map.recover.congr (by simp)

theorem name_exact : (name.judgeWith rules loops).Exact bound Ends
    fun used label => ∃ t, label = .ofToken t ∧ used = [t] ∧ t.kind = .identifier :=
  (Exact.token bound Ends .identifier).map

theorem assigned_exact : (assigned.judgeWith rules loops).Exact bound Ends fun used label =>
    ∃ t assign, label = .ofToken t ∧ used = [t, assign] ∧ t.kind = .identifier ∧
      assign.kind = .assign := by
  refine ((name_exact fun _ => True).bind (fun _ => (Exact.token bound Ends .assign).map)
    fun _ _ => trivial).congr ?_
  intro used label
  constructor
  · rintro ⟨_, _, _, rfl, ⟨t, rfl, rfl, names⟩, assign, rfl, rfl, assigns⟩
    exact ⟨t, assign, rfl, rfl, names, assigns⟩
  · rintro ⟨t, assign, rfl, rfl, names, assigns⟩
    exact ⟨_, _, _, rfl, ⟨t, rfl, rfl, names⟩, assign, rfl, rfl, assigns⟩

/-- A parser that can end before a `;` may be followed by one. -/
theorem followedBy_terminator {α : Type} {p : Parser Rule α} {kinds : List TokenKind}
    {Form : Phrase α} (exact : (p.judgeWith rules loops).Exact bound (Avoids kinds) Form)
    (apart : .semicolon ∉ kinds) :
    ((p.followedBy terminator).judgeWith rules loops).Exact bound Ends fun used value =>
      ∃ front stop, used = front ++ [stop] ∧ Form front value ∧ stop.kind = .semicolon := by
  refine (exact.bind (fun _ => (terminator_exact Ends).map) ?_).congr ?_
  · rintro _ _ _ after ⟨_, -, stop, rfl, stops⟩ _
    refine avoids_cons.mpr ?_
    rwa [stops]
  · intro used value
    constructor
    · rintro ⟨front, _, _, rfl, form, _, rfl, stop, rfl, stops⟩
      exact ⟨front, stop, rfl, form, stops⟩
    · rintro ⟨front, stop, rfl, form, stops⟩
      exact ⟨front, value, _, rfl, form, (), rfl, stop, rfl, stops⟩

def misplaced : Parser Rule Expr :=
  (Parser.lookahead (.token .openBrace)).andThen
    ((Parser.fail .conditionExpected).recover (.succeed .invalid))

/-- A block where a condition should be is reported, and nothing else is matched. -/
theorem misplaced_judged (rules : ∀ {γ : Type}, Rule γ → Judge γ) (loops : Nat)
    (tokens : List Token) :
    misplaced.judgeWith rules loops tokens = .fails tokens tokens ∨
      misplaced.judgeWith rules loops tokens = .reports := by
  cases tokens with
  | nil => exact .inl rfl
  | cons t rest =>
    simp only [misplaced, Parser.andThen, Parser.judgeWith, Parser.judgeLookahead,
      Parser.judgeToken]
    by_cases found : t.kind = .openBrace
    · exact .inr (by simp [found, Verdict.andThen, Parser.judgeRecover])
    · exact .inl (by simp [found, Verdict.andThen])

theorem condition_exact (calls : Calls bound rules) :
    (condition.judgeWith rules loops).Exact bound (Avoids Rung.or.continues) (Derives .or) := by
  have nothing : (misplaced.judgeWith rules loops).Exact bound (Avoids Rung.or.continues)
      fun _ _ => False := by
    refine ⟨Parser.judgeWith_shrinks calls.shrinks loops _, ?_, ?_, ?_⟩
    · intro tokens _
      rcases misplaced_judged rules loops tokens with same | same <;> simp [same]
    · nofun
    · intro tokens after value _ _ _ read
      rcases misplaced_judged rules loops tokens with same | same <;> simp [same] at read
  refine (nothing.orElse (token_opens bound .openBrace).lookahead.bind calls.expression ?_).congr
    (by simp)
  intro used e after derives _
  obtain ⟨t, rest, rfl, kind⟩ := derives.opens
  have apart : ∀ kind ∈ Rung.or.opens, kind ∉ [TokenKind.openBrace] := by decide
  exact avoids_cons.mpr (apart _ kind)

theorem statementValue_exact (calls : Calls bound rules) :
    (statementValue.judgeWith rules loops).Exact bound Ends fun used value =>
      ∃ front stop, used = front ++ [stop] ∧ Derives .or front value ∧ stop.kind = .semicolon :=
  followedBy_terminator Ends (p := .call Rule.expression) calls.expression (by decide)

theorem transition_exact : (transition.judgeWith rules loops).Exact bound Ends fun used action =>
    ∃ keyword assign target stop, used = [keyword, assign, target, stop] ∧
      action = .transition keyword.span (.ofToken target) ∧ keyword.kind = .stateWord ∧
      assign.kind = .assign ∧ target.kind = .identifier ∧ stop.kind = .semicolon := by
  have begins := (Exact.token bound (fun _ => True) .stateWord).bind
    (fun keyword => (Exact.token bound (fun _ => True) .assign).map (f := fun _ => keyword))
    fun _ _ => trivial
  have named : (name.judgeWith rules loops).Exact bound (Avoids []) _ := name_exact _
  refine (begins.bind (fun keyword => (followedBy_terminator Ends named (by simp)).map) fun _ _ =>
    trivial).congr ?_
  intro used action
  constructor
  · rintro ⟨_, _, _, rfl, ⟨_, _, _, rfl, ⟨rfl, states⟩, assign, rfl, rfl, assigns⟩, _, rfl, _, stop,
      rfl, ⟨target, rfl, rfl, names⟩, stops⟩
    exact ⟨_, assign, target, stop, rfl, rfl, states, assigns, names, stops⟩
  · rintro ⟨keyword, assign, target, stop, rfl, rfl, states, assigns, names, stops⟩
    exact ⟨_, _, _, rfl, ⟨_, _, _, rfl, ⟨rfl, states⟩, assign, rfl, rfl, assigns⟩, _, rfl, _, stop,
      rfl, ⟨target, rfl, rfl, names⟩, stops⟩

theorem assignment_exact (calls : Calls bound rules) :
    (assignment.judgeWith rules loops).Exact bound Ends fun used action =>
      ∃ target assign front stop value, used = target :: assign :: (front ++ [stop]) ∧
        action = .assignment (.ofToken target) value ∧ target.kind = .identifier ∧
        assign.kind = .assign ∧ Derives .or front value ∧ stop.kind = .semicolon := by
  refine ((assigned_exact fun _ => True).bind (fun _ => (statementValue_exact Ends calls).map)
    fun _ _ => trivial).congr ?_
  intro used action
  constructor
  · rintro ⟨_, _, _, rfl, ⟨target, assign, rfl, rfl, names, assigns⟩, value, rfl, front, stop, rfl,
      derives, stops⟩
    exact ⟨target, assign, front, stop, value, rfl, rfl, names, assigns, derives, stops⟩
  · rintro ⟨target, assign, front, stop, value, rfl, rfl, names, assigns, derives, stops⟩
    exact ⟨_, _, _, rfl, ⟨target, assign, rfl, rfl, names, assigns⟩, value, rfl, front, stop, rfl,
      derives, stops⟩

theorem assertion_exact (calls : Calls bound rules) :
    (assertion.judgeWith rules loops).Exact bound Ends fun used action =>
      ∃ keyword front stop test, used = keyword :: (front ++ [stop]) ∧
        action = .assertion keyword.span test ∧ keyword.kind = .assertWord ∧
        Derives .or front test ∧ stop.kind = .semicolon := by
  refine ((Exact.afterToken fun _ => (followedBy_terminator Ends (condition_exact calls)
    (by decide)).map).mono (Nat.le_succ bound)).congr ?_
  intro used action
  constructor
  · rintro ⟨keyword, _, rfl, asserts, test, rfl, front, stop, rfl, derives, stops⟩
    exact ⟨keyword, front, stop, test, rfl, rfl, asserts, derives, stops⟩
  · rintro ⟨keyword, front, stop, test, rfl, rfl, asserts, derives, stops⟩
    exact ⟨keyword, _, rfl, asserts, test, rfl, front, stop, rfl, derives, stops⟩

/-- The second branch of a conditional, which may be missing. -/
theorem otherwise_exact (calls : Calls bound rules) :
    ((((Parser.token .elseWord).andThen ((Parser.call Rule.block).map some)).optional
      none).judgeWith rules loops).Exact bound (Avoids [.elseWord]) fun used otherwise =>
      (∃ word back block, used = word :: back ∧ otherwise = some block ∧ word.kind = .elseWord ∧
        BlockPhrase back block) ∨ used = [] ∧ otherwise = none := by
  have present : (((Parser.token .elseWord).andThen ((Parser.call Rule.block).map some)).judgeWith
      rules loops).Exact bound (Avoids [.elseWord]) _ :=
    (Exact.afterToken fun _ => (calls.block.narrow fun _ => trivial).map).mono (Nat.le_succ bound)
  refine (present.orElse (token_opens bound .elseWord).bind (Exact.succeed bound _ none) ?_).congr ?_
  · rintro used otherwise after ⟨rfl, -⟩ avoids
    exact avoids
  · intro used otherwise
    refine or_congr_left ?_
    constructor
    · rintro ⟨word, back, rfl, switches, block, rfl, encloses⟩
      exact ⟨word, back, block, rfl, rfl, switches, encloses⟩
    · rintro ⟨word, back, block, rfl, rfl, switches, encloses⟩
      exact ⟨word, back, rfl, switches, block, rfl, encloses⟩

theorem conditional_exact (calls : Calls bound rules) :
    (conditional.judgeWith rules loops).Exact bound (Avoids [.elseWord]) fun used action =>
      ∃ keyword inside front back test body otherwise,
        used = keyword :: (inside ++ (front ++ back)) ∧
        action = .conditional keyword.span test body otherwise ∧ keyword.kind = .ifWord ∧
        Derives .or inside test ∧ BlockPhrase front body ∧
        ((∃ word more block, back = word :: more ∧ otherwise = some block ∧ word.kind = .elseWord ∧
          BlockPhrase more block) ∨ back = [] ∧ otherwise = none) := by
  refine ((Exact.afterToken fun keyword => (condition_exact calls).bind (fun test =>
    calls.block.bind (fun body => (otherwise_exact calls).map) fun _ _ => trivial) ?_).mono
    (Nat.le_succ bound)).congr ?_
  · rintro test _ _ after ⟨front, body, back, rfl, encloses, -⟩ _
    obtain ⟨opens, acts, closes⟩ := encloses
    refine avoids_cons.mpr ?_
    rw [opens]
    decide
  intro used action
  constructor
  · rintro ⟨keyword, _, rfl, tests, inside, test, _, rfl, derives, front, body, back, rfl, encloses,
      otherwise, rfl, rest⟩
    exact ⟨keyword, inside, front, back, test, body, otherwise, rfl, rfl, tests, derives, encloses,
      rest⟩
  · rintro ⟨keyword, inside, front, back, test, body, otherwise, rfl, rfl, tests, derives, encloses,
      rest⟩
    exact ⟨keyword, _, rfl, tests, inside, test, _, rfl, derives, front, body, back, rfl, encloses,
      otherwise, rfl, rest⟩

theorem action_exact (calls : Calls bound rules) :
    (action.judgeWith rules loops).Exact bound (Avoids [.elseWord]) ActionPhrase := by
  have transits : (transition.judgeWith rules loops).Opens bound [.stateWord] :=
    (token_opens bound .stateWord).bind.bind
  have tests : (conditional.judgeWith rules loops).Opens bound [.ifWord] :=
    (token_opens bound .ifWord).bind
  have asserts : (assertion.judgeWith rules loops).Opens bound [.assertWord] :=
    (token_opens bound .assertWord).bind
  have nests : (((Parser.call Rule.block).map Action.nested).judgeWith rules loops).Opens bound
      [.openBrace] := calls.opens.bind
  have nested : (((Parser.call Rule.block).map Action.nested).judgeWith rules loops).Exact bound
      (Avoids [.elseWord]) _ := (calls.block.narrow fun _ => trivial).map
  refine (((((transition_exact _).orElse transits (conditional_exact calls) ?_).orElse
    (transits.orElse tests) (assertion_exact _ calls) ?_).orElse
    ((transits.orElse tests).orElse asserts) nested ?_).orElse
    (((transits.orElse tests).orElse asserts).orElse nests) (assignment_exact _ calls) ?_).congr ?_
  · rintro used value after ⟨keyword, inside, front, back, test, body, otherwise, rfl, rfl, kind, -⟩ _
    simp [kind]
  · rintro used value after ⟨keyword, front, stop, test, rfl, rfl, kind, -⟩ _
    simp [kind]
  · rintro used value after ⟨body, rfl, kind, -⟩ _
    simp [kind]
  · rintro used value after ⟨target, assign, front, stop, test, rfl, rfl, kind, -⟩ _
    simp [kind]
  · intro used value
    constructor
    · rintro ((((⟨keyword, assign, target, stop, rfl, rfl, states, assigns, names, stops⟩ |
        ⟨keyword, inside, front, back, test, body, otherwise, rfl, rfl, tests, derives, encloses,
          ⟨word, more, block, rfl, rfl, switches, other⟩ | ⟨rfl, rfl⟩⟩) |
        ⟨keyword, front, stop, test, rfl, rfl, asserts, derives, stops⟩) |
        ⟨body, rfl, encloses⟩) |
        ⟨target, assign, front, stop, value, rfl, rfl, names, assigns, derives, stops⟩)
      · exact .transition states assigns names stops
      · exact .alternative tests derives encloses switches other
      · simpa using ActionPhrase.conditional tests derives encloses
      · exact .assertion asserts derives stops
      · exact .nested encloses
      · exact .assignment names assigns derives stops
    · intro acts
      cases acts with
      | transition states assigns names stops =>
        exact .inl (.inl (.inl (.inl ⟨_, _, _, _, rfl, rfl, states, assigns, names, stops⟩)))
      | alternative tests derives encloses switches other =>
        exact .inl (.inl (.inl (.inr ⟨_, _, _, _, _, _, _, rfl, rfl, tests, derives, encloses,
          .inl ⟨_, _, _, rfl, rfl, switches, other⟩⟩)))
      | conditional tests derives encloses =>
        exact .inl (.inl (.inl (.inr ⟨_, _, _, [], _, _, _, by simp, rfl, tests, derives, encloses,
          .inr ⟨rfl, rfl⟩⟩)))
      | assertion asserts derives stops =>
        exact .inl (.inl (.inr ⟨_, _, _, _, rfl, rfl, asserts, derives, stops⟩))
      | nested encloses => exact .inl (.inr ⟨_, rfl, encloses⟩)
      | assignment names assigns derives stops =>
        exact .inr ⟨_, _, _, _, _, rfl, rfl, names, assigns, derives, stops⟩

theorem bind_consumes {α β : Type} {p : Parser Rule α} {next : α → Parser Rule β}
    (calls : Calls bound rules) (first : (p.judgeWith rules loops).Consumes) :
    ((p.bind next).judgeWith rules loops).Consumes :=
  first.bind fun a => Parser.judgeWith_shrinks calls.shrinks loops (next a)

theorem orElse_consumes {α : Type} {p q : Parser Rule α} (calls : Calls bound rules)
    (first : (p.judgeWith rules loops).Consumes) (second : (q.judgeWith rules loops).Consumes) :
    ((p.orElse q).judgeWith rules loops).Consumes :=
  first.orElse (Parser.judgeWith_shrinks calls.shrinks loops p) second

/-- Every action starts with a token of its own. -/
theorem action_consumes (calls : Calls bound rules) :
    (action.judgeWith rules loops).Consumes := by
  have transits : (transition.judgeWith rules loops).Consumes :=
    bind_consumes calls (bind_consumes calls (token_consumes .stateWord))
  have tests : (conditional.judgeWith rules loops).Consumes :=
    bind_consumes calls (token_consumes .ifWord)
  have asserts : (assertion.judgeWith rules loops).Consumes :=
    bind_consumes calls (token_consumes .assertWord)
  have nests : (((Parser.call Rule.block).map Action.nested).judgeWith rules loops).Consumes :=
    bind_consumes calls calls.consumes
  have assigns : (assignment.judgeWith rules loops).Consumes :=
    bind_consumes calls (bind_consumes calls (bind_consumes calls (token_consumes .identifier)))
  exact orElse_consumes calls (orElse_consumes calls (orElse_consumes calls
    (orElse_consumes calls transits tests) asserts) nests) assigns

theorem recoveredAction_exact (calls : Calls bound rules) :
    (recoveredAction.judgeWith rules loops).Exact bound (Avoids [.elseWord])
      fun used option => ∃ action, option = some action ∧ ActionPhrase used action :=
  (action_exact calls).map.recover

theorem block_exact (calls : Calls bound rules) (enough : bound ≤ loops) :
    (block.judgeWith rules loops).Exact (bound + 1) (fun _ => True) BlockPhrase := by
  have consumes : (recoveredAction.judgeWith rules loops).Consumes :=
    (bind_consumes calls (action_consumes calls)).recover
  refine (Exact.afterToken fun opening => ((recoveredAction_exact calls).manyUntil consumes ?_ ?_
    enough).bind (fun options => (Exact.token bound _ .closeBrace).map) ?_).congr ?_
  · intro t rest kind
    simp [kind]
  · rintro used _ rest ⟨action, rfl, acts⟩
    obtain ⟨t, more, rfl, kind⟩ := acts.opens
    simp only [List.cons_append, avoids_cons]
    constructor <;> intro other
    all_goals
      rw [List.mem_singleton.mp other] at kind
      exact absurd kind (by decide)
  · rintro options _ _ after ⟨closing, rfl, rfl, closes⟩ _
    exact ⟨closing, after, rfl, closes⟩
  · intro used body
    constructor
    · rintro ⟨opening, _, rfl, opens, inside, options, _, rfl, acts, closing, rfl, rfl, closes⟩
      obtain ⟨actions, rfl, sequence⟩ := Phrase.sequence_some_iff.mp acts
      simpa using BlockPhrase.braces opens sequence closes
    · rintro ⟨opens, acts, closes⟩
      refine ⟨_, _, rfl, opens, _, _, _, rfl, Phrase.sequence_some_iff.mpr ⟨_, rfl, acts⟩, ?_⟩
      exact ⟨_, by simp, rfl, closes⟩

/-- The rules read what they stand for, as long as they can be nested deep enough. -/
theorem rules_called {depth : Nat} (enough : depth ≤ loops) :
    Calls depth fun rule => Statecraft.Grammar.judgeRule Grammar.rules loops depth rule := by
  have shrinks {depth : Nat} {γ : Type} (rule : Rule γ) :
      (Statecraft.Grammar.judgeRule Grammar.rules loops depth rule).Shrinks :=
    Statecraft.Grammar.judgeRule_shrinks _ _ _ rule
  induction depth with
  | zero =>
    refine ⟨shrinks, expression_exact enough, .none (shrinks _), ?_, ?_⟩
    · exact fun tokens short => absurd short (Nat.not_lt_zero _)
    · intro tokens value after read
      contradiction
  | succ depth ih =>
    have calls := ih (Nat.le_of_succ_le enough)
    refine ⟨shrinks, expression_exact enough, block_exact calls (Nat.le_of_succ_le enough), ?_, ?_⟩
    · exact (token_opens (depth + 1) .openBrace).bind
    · exact bind_consumes calls (token_consumes .openBrace)

end Grammar

mutual

/-- No expression of the action has a missing part if and only if a double is near every number. -/
theorem action_complete_iff (a : Action) {used : List Token} (acts : ActionPhrase used a) :
    a.Complete ↔ ∀ t ∈ used, t.Fits := by
  cases a with
  | transition keyword target =>
    cases acts with
    | transition states assigns names stops =>
      simp [Action.Complete, Token.fits_of_ne, states, assigns, names, stops]
  | assignment name value =>
    cases acts with
    | assignment names assigns derives stops =>
      simp [Action.Complete, derives.complete_iff, Token.fits_of_ne, names, assigns, stops, or_imp,
        forall_and]
  | assertion keyword test =>
    cases acts with
    | assertion asserts derives stops =>
      simp [Action.Complete, derives.complete_iff, Token.fits_of_ne, asserts, stops, or_imp,
        forall_and]
  | nested body =>
    cases acts with
    | nested encloses => rw [Action.Complete, block_complete_iff body encloses]
  | conditional keyword test body otherwise =>
    cases otherwise with
    | none =>
      cases acts with
      | conditional tests derives encloses =>
        simp [Action.Complete, derives.complete_iff, block_complete_iff body encloses,
          Token.fits_of_ne, tests, or_imp, forall_and]
    | some other =>
      cases acts with
      | alternative tests derives encloses switches other' =>
        simp [Action.Complete, derives.complete_iff, block_complete_iff body encloses,
          block_complete_iff other other', Token.fits_of_ne, tests, switches, or_imp, forall_and]

theorem block_complete_iff (b : Block) {used : List Token} (encloses : BlockPhrase used b) :
    b.Complete ↔ ∀ t ∈ used, t.Fits := by
  obtain ⟨opening, body, closing⟩ := b
  cases encloses with
  | braces opens acts closes =>
    simp [Block.Complete, actions_complete_iff body acts, Token.fits_of_ne, opens, closes, or_imp,
      forall_and]

theorem actions_complete_iff (as : List Action) {used : List Token}
    (acts : Sequence ActionPhrase used as) : Action.AllComplete as ↔ ∀ t ∈ used, t.Fits := by
  cases as with
  | nil =>
    cases acts
    simp [Action.AllComplete]
  | cons a rest =>
    cases acts with
    | cons first others =>
      rw [Action.AllComplete, action_complete_iff a first, actions_complete_iff rest others,
        List.forall_mem_append]

end

end Statecraft.Source
