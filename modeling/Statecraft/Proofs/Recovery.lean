import Statecraft.Proofs.ReportingRuns
import Statecraft.Proofs.ProgramGrammar

/-! Recovery is local. Tokens that no definition starts with are reported once and skipped up to
the next `;`; what is defined before and after them is kept. The same holds for actions, in any
block of a program. -/
namespace Statecraft.Source

open Phrase (Sequence)

/-- Tokens up to a `;`, the first of which is of none of the kinds. -/
inductive Broken (kinds : List TokenKind) (first : Token) : List Token → Prop where
  | upTo {more : List Token} {stop : Token} (refused : first.kind ∉ kinds)
      (plain : ∀ t ∈ first :: more, t.kind ∉ [TokenKind.semicolon, .closeBrace])
      (stops : stop.kind = .semicolon) : Broken kinds first (first :: (more ++ [stop]))

/-- An action one of whose blocks is the given one. -/
inductive ActionAround (inner : List Token) (block : Block) : Phrase Action where
  | nested : ActionAround inner block inner (.nested block)
  | conditional {keyword : Token} {used : List Token} {test : Expr}
      (tests : keyword.kind = .ifWord) (derives : Derives .or used test) :
      ActionAround inner block (keyword :: (used ++ inner))
        (.conditional keyword.span test block none)
  | body {keyword word : Token} {used back : List Token} {test : Expr} {otherwise : Block}
      (tests : keyword.kind = .ifWord) (derives : Derives .or used test)
      (switches : word.kind = .elseWord) (other : BlockPhrase back otherwise) :
      ActionAround inner block (keyword :: (used ++ (inner ++ word :: back)))
        (.conditional keyword.span test block (some otherwise))
  | otherwise {keyword word : Token} {used front : List Token} {test : Expr} {body : Block}
      (tests : keyword.kind = .ifWord) (derives : Derives .or used test)
      (encloses : BlockPhrase front body) (switches : word.kind = .elseWord) :
      ActionAround inner block (keyword :: (used ++ (front ++ word :: inner)))
        (.conditional keyword.span test body (some block))

/-- A block that is the given one or has it inside, at any depth. -/
inductive BlockAround (inner : List Token) (block : Block) : Phrase Block where
  | here : BlockAround inner block inner block
  | within {middle used front back : List Token} {opening closing : Token} {body : Block}
      {action : Action} {before after : List Action} (around : BlockAround inner block middle body)
      (acts : ActionAround middle body used action) (opens : opening.kind = .openBrace)
      (first : Sequence ActionPhrase front before) (last : Sequence ActionPhrase back after)
      (closes : closing.kind = .closeBrace) :
      BlockAround inner block (opening :: (front ++ (used ++ (back ++ [closing]))))
        (.braces opening.span (before ++ action :: after) closing.span)

/-- A program with the block in one of its definitions. -/
inductive ProgramAround (inner : List Token) (block : Block) : Phrase Program where
  | when {keyword state : Token} {used front back : List Token} {body : Block}
      {before after : Program} (first : Sequence DefinitionPhrase front before)
      (starts : keyword.kind = .whenWord) (names : state.kind = .identifier)
      (around : BlockAround inner block used body) (last : Sequence DefinitionPhrase back after) :
      ProgramAround inner block (front ++ (keyword :: state :: (used ++ back)))
        (before ++ .whenBlock ⟨keyword.span, ⟨state.text, state.span⟩, body⟩ :: after)

def definitionKinds : List TokenKind := [.stateWord, .constWord, .letWord, .whenWord]

def actionKinds : List TokenKind := [.stateWord, .ifWord, .assertWord, .openBrace, .identifier]

theorem ActionPhrase.filled {used : List Token} {action : Action}
    (acts : ActionPhrase used action) : used ≠ [] := by
  obtain ⟨t, rest, rfl, -⟩ := acts.opens
  simp

theorem ActionPhrase.avoids {used : List Token} {action : Action} {kinds : List TokenKind}
    (acts : ActionPhrase used action) (apart : ∀ kind ∈ actionKinds, kind ∉ kinds)
    (rest : List Token) : Avoids kinds (used ++ rest) := by
  obtain ⟨t, tail, rfl, kind⟩ := acts.opens
  have same : ∀ kind ∈ [TokenKind.stateWord, .identifier, .ifWord, .assertWord, .openBrace],
      kind ∈ actionKinds := by decide
  exact avoids_cons.mpr (apart _ (same _ kind))

theorem Broken.filled {kinds : List TokenKind} {first : Token} {used : List Token}
    (broken : Broken kinds first used) : used ≠ [] := by
  obtain ⟨-, -, -⟩ := broken
  simp

theorem Broken.avoids {kinds : List TokenKind} {first : Token} {used : List Token}
    (broken : Broken (.elseWord :: kinds) first used) (rest : List Token) :
    Avoids [.elseWord, .closeBrace] (used ++ rest) := by
  obtain ⟨refused, plain, -⟩ := broken
  have held := plain first List.mem_cons_self
  simp_all

theorem ActionAround.starts {opening : Token} {inner used : List Token} {block : Block}
    {action : Action} (acts : ActionAround (opening :: inner) block used action)
    (opens : opening.kind = .openBrace) :
    used ≠ [] ∧ ∀ rest, Avoids [.elseWord, .closeBrace] (used ++ rest) := by
  cases acts with
  | nested => simp [opens]
  | conditional tests | body tests | otherwise tests => simp [tests]

theorem sequence_avoids {α : Type} {Form : Phrase α} {kinds : List TokenKind}
    {front back : List Token} {values : List α}
    (joint : ∀ {used value}, Form used value → ∀ rest, Avoids kinds (used ++ rest))
    (sequence : Sequence Form front values) (ends : Avoids kinds back) :
    Avoids kinds (front ++ back) := by
  cases sequence with
  | nil => exact ends
  | cons first others =>
    rw [List.append_assoc]
    exact joint first _

namespace Grammar

open Statecraft.Parser (runMany runManyUntil token_awaits bind_awaits orElse_awaits token_passes
  bind_passes map_passes)
open Judge (Exact)

abbrev within {α : Type} (loops depth : Nat) (p : Parser Rule α) : Runner α :=
  p.runWith (fun rule => Statecraft.Grammar.runRule rules loops depth rule) loops

abbrev expected {α : Type} (loops depth : Nat) (p : Parser Rule α) : Judge α :=
  p.judgeWith (fun rule => Statecraft.Grammar.judgeRule rules loops depth rule) loops

variable {tape : Tape} {loops depth : Nat} {α β : Type} {p : Parser Rule α}
  {used start middle rest : List Token} {value : α} {more new : List Report}

theorem within_block :
    within loops (depth + 1) (.call Rule.block) = within loops depth block := by
  have called : rules Rule.block = block := rfl
  funext ctx
  rw [within, Parser.runWith, Statecraft.Grammar.runRule, called]

theorem reads_passes (reads : expected loops depth p start = .reads value rest) :
    Passes tape (within loops depth p) start value rest [] :=
  passes_of_reads (Parser.runWith_follows (Statecraft.Grammar.runRule_follows _ _ _) loops p)
    (Parser.runWith_heedless (Statecraft.Grammar.runRule_heedless _ _ _) loops p) reads

theorem phrase_passes {Ends : List Token → Prop} {Form : Phrase α}
    (exact : (expected loops depth p).Exact depth Ends Form) (form : Form used value)
    (ends : Ends rest) (short : (used ++ rest).length < depth) :
    Passes tape (within loops depth p) (used ++ rest) value rest [] :=
  reads_passes (exact.reads short ends form)

theorem fails_refuses (fails : expected loops depth p start = .fails start start) :
    Refuses tape (within loops depth p) start :=
  refuses_of_fails (Parser.runWith_follows (Statecraft.Grammar.runRule_follows _ _ _) loops p)
    (Parser.runWith_heedless (Statecraft.Grammar.runRule_heedless _ _ _) loops p) fails

/-- Phrases one after the other are passed by a loop that passes each of them. -/
theorem sequence_repeats {Form : Phrase α} {loop : Nat → Runner (List β)} {f : α → β}
    {bound : Nat} {front : List Token} {before : List α} {values : List β} (kinds : List TokenKind)
    (joint : ∀ {used value}, Form used value → ∀ rest, Avoids kinds (used ++ rest))
    (step : ∀ {used value middle values}, Form used value → Avoids kinds middle →
      (used ++ middle).length < bound → Repeats tape loop middle values rest more →
      Repeats tape loop (used ++ middle) (f value :: values) rest more)
    (sequence : Sequence Form front before) (ends : Avoids kinds middle)
    (short : (front ++ middle).length < bound)
    (repeats : Repeats tape loop middle values rest more) :
    Repeats tape loop (front ++ middle) (before.map f ++ values) rest more := by
  induction sequence with
  | nil => exact repeats
  | @cons front back value values' first others ih =>
    rw [List.append_assoc] at short ⊢
    have shorter : (back ++ middle).length < bound := by
      rw [List.length_append] at short
      omega
    exact step first (sequence_avoids joint others ends) short (ih shorter)

abbrev actionLoop (loops depth : Nat) : Nat → Runner (List (Option Action)) :=
  runManyUntil (within loops depth recoveredAction)
    (within loops depth (.lookahead (.token .closeBrace)))

abbrev definitionLoop (loops depth : Nat) : Nat → Runner (List (Option Definition)) :=
  runMany (within loops depth recoveredDefinition)

theorem actionLoop_nil {closing : Token} (closes : closing.kind = .closeBrace) :
    Repeats tape (actionLoop loops depth) (closing :: rest) [] (closing :: rest) [] := by
  have found : expected loops depth (.lookahead (.token .closeBrace)) (closing :: rest) =
      .reads closing (closing :: rest) := by
    simp [Parser.judgeWith, Parser.judgeLookahead, Parser.judgeToken, closes]
  exact Parser.runManyUntil_nil (reads_passes found)

theorem actionLoop_cons {option : Option Action} {options : List (Option Action)}
    (filled : used ≠ []) (avoids : Avoids [.closeBrace] (used ++ middle))
    (passes : Passes tape (within loops depth recoveredAction) (used ++ middle) option middle new)
    (repeats : Repeats tape (actionLoop loops depth) middle options rest more) :
    Repeats tape (actionLoop loops depth) (used ++ middle) (option :: options) rest
      (new ++ more) := by
  have missing : expected loops depth (.lookahead (.token .closeBrace)) (used ++ middle) =
      .fails (used ++ middle) (used ++ middle) :=
    (Judge.token_opens _ .closeBrace).lookahead (Nat.lt_succ_self _) avoids
  exact Parser.runManyUntil_cons filled (fails_refuses missing) passes repeats

/-- Well-formed actions are read without a report. -/
theorem actions_repeat {front : List Token} {before : List Action} {options : List (Option Action)}
    (deep : depth ≤ loops) (sequence : Sequence ActionPhrase front before)
    (ends : Avoids [.elseWord] middle) (short : (front ++ middle).length < depth)
    (repeats : Repeats tape (actionLoop loops depth) middle options rest more) :
    Repeats tape (actionLoop loops depth) (front ++ middle) (before.map some ++ options) rest
      more := by
  refine sequence_repeats [.elseWord] (fun acts => acts.avoids (by decide)) ?_ sequence ends short
    repeats
  intro used action middle options acts ends short repeats
  have passes : Passes tape (within loops depth recoveredAction) (used ++ middle) (some action)
      middle [] :=
    phrase_passes (recoveredAction_exact (rules_called deep)) ⟨action, rfl, acts⟩ ends short
  exact actionLoop_cons acts.filled (acts.avoids (by decide) _) passes repeats

/-- Well-formed definitions are read without a report. -/
theorem definitions_repeat {front : List Token} {before : Program}
    {options : List (Option Definition)} (deep : depth ≤ loops)
    (sequence : Sequence DefinitionPhrase front before) (short : (front ++ middle).length < depth)
    (repeats : Repeats tape (definitionLoop loops depth) middle options rest more) :
    Repeats tape (definitionLoop loops depth) (front ++ middle) (before.map some ++ options) rest
      more := by
  refine sequence_repeats [] (by simp [Avoids]) ?_ sequence (by simp [Avoids]) short repeats
  intro used definition middle options defines _ short repeats
  have positive : 0 < loops := Nat.lt_of_lt_of_le (Nat.zero_lt_of_lt short) deep
  have exact := ((definition_exact (rules_called deep) deep positive).map (f := some)).recover
  have passes : Passes tape (within loops depth recoveredDefinition) (used ++ middle)
      (some definition) middle [] :=
    phrase_passes exact ⟨definition, rfl, defines⟩ trivial short
  have filled : used ≠ [] := by cases defines <;> simp
  exact Parser.runMany_cons filled passes repeats

/-- What a definition that is no when-block starts with. -/
theorem declarations_await :
    Awaits tape (within loops depth ((stateList.orElse (declaration .constWord .fixed)).orElse
      (declaration .letWord .assignable))) [.stateWord, .constWord, .letWord] := by
  have lists : Awaits tape (within loops depth stateList) [.stateWord] :=
    bind_awaits (token_awaits _)
  have declares (kind : TokenKind) (storage : Storage) :
      Awaits tape (within loops depth (declaration kind storage)) [kind] :=
    bind_awaits (token_awaits _)
  exact orElse_awaits (orElse_awaits lists (declares _ _)) (declares _ _)

theorem definition_awaits : Awaits tape (within loops depth definition) definitionKinds := by
  have starts : Awaits tape (within loops depth whenBlock) [.whenWord] :=
    bind_awaits (token_awaits _)
  exact orElse_awaits declarations_await starts

theorem transition_awaits : Awaits tape (within loops depth transition) [.stateWord] :=
  bind_awaits (bind_awaits (token_awaits _))

theorem conditional_awaits : Awaits tape (within loops depth conditional) [.ifWord] :=
  bind_awaits (token_awaits _)

theorem assertion_awaits : Awaits tape (within loops depth assertion) [.assertWord] :=
  bind_awaits (token_awaits _)

theorem action_awaits : Awaits tape (within loops (depth + 1) action) actionKinds := by
  have called : Awaits tape (within loops (depth + 1) (.call Rule.block)) [.openBrace] := by
    rw [within_block]
    exact bind_awaits (token_awaits _)
  have nests : Awaits tape (within loops (depth + 1) ((Parser.call Rule.block).map Action.nested))
      [.openBrace] := bind_awaits called
  have assigns : Awaits tape (within loops (depth + 1) assignment) [.identifier] :=
    bind_awaits (bind_awaits (bind_awaits (token_awaits _)))
  exact orElse_awaits (orElse_awaits (orElse_awaits (orElse_awaits transition_awaits
    conditional_awaits) assertion_awaits) nests) assigns

/-- What is broken is reported once and skipped together with its `;`. -/
theorem broken_passes {stop : Parser Rule Unit} {kinds others : List TokenKind} {first : Token}
    (awaits : Awaits tape (within loops depth p) kinds) (broken : Broken others first used)
    (fewer : kinds ⊆ others) (short : used.length ≤ loops)
    (refuses : ∀ {t : Token}, t.kind ∉ [TokenKind.semicolon, .closeBrace] → ∀ rest,
      Refuses tape (within loops depth stop) (t :: rest))
    (stops : ∀ {t : Token}, t.kind = .semicolon →
      Passes tape (within loops depth stop) (t :: rest) () rest []) :
    Passes tape (within loops depth ((p.map some).recover (stop.skipUntil.as none))) (used ++ rest)
      none rest [.refusal kinds first] := by
  obtain @⟨more, closing, refused, plain, ends⟩ := broken
  have skips : Passes tape (within loops depth stop.skipUntil) (first :: more ++ closing :: rest) ()
      rest [] := by
    refine Parser.skipUntil_passes (fun t member => refuses (plain t member)) (stops ends) ?_
    simp only [List.length_cons, List.length_append, List.length_nil] at short ⊢
    omega
  have mapped : Awaits tape (within loops depth (p.map some)) kinds := bind_awaits awaits
  rw [List.cons_append, List.append_assoc]
  exact Parser.recover_refused mapped (fun member => refused (fewer member))
    (Parser.map_passes (fun _ => none) skips)

theorem broken_definition_passes {first : Token} (broken : Broken definitionKinds first used)
    (short : used.length ≤ loops) :
    Passes tape (within loops depth recoveredDefinition) (used ++ rest) none rest
      [.refusal definitionKinds first] := by
  refine broken_passes definition_awaits broken (List.Subset.refl _) short ?_ ?_
  · intro t plain rest
    refine fails_refuses ?_
    simp_all [Parser.judgeWith, Parser.as, Parser.map, Parser.anyToken, Parser.oneOf,
      Parser.judgeOrElse, Parser.judgeToken, Parser.judgeFinish, Verdict.andThen]
  · intro t stops
    refine reads_passes ?_
    simp [stops, Parser.judgeWith, Parser.as, Parser.map, Parser.anyToken, Parser.oneOf,
      Parser.judgeOrElse, Parser.judgeToken, Verdict.andThen]

theorem broken_action_passes {first : Token} (broken : Broken (.elseWord :: actionKinds) first used)
    (short : used.length ≤ loops) :
    Passes tape (within loops (depth + 1) recoveredAction) (used ++ rest) none rest
      [.refusal actionKinds first] := by
  refine broken_passes action_awaits broken (List.subset_cons_self _ _) short ?_ ?_
  · intro t plain rest
    refine fails_refuses ?_
    simp_all [Parser.judgeWith, Parser.as, Parser.map, Parser.judgeOrElse, Parser.judgeToken,
      Parser.judgeLookahead, Verdict.andThen]
  · intro t stops
    refine reads_passes ?_
    simp [stops, Parser.judgeWith, Parser.as, Parser.map, Parser.judgeOrElse, Parser.judgeToken,
      Verdict.andThen]

abbrev elseBranch : Parser Rule (Option Block) :=
  ((Parser.token .elseWord).andThen ((Parser.call Rule.block).map some)).optional none

theorem elseBranch_missing (avoids : Avoids [.elseWord] rest) :
    Passes tape (within loops depth elseBranch) rest none rest [] := by
  refine Parser.orElse_second (fails_refuses ?_) (Parser.succeed_passes none)
  exact (Judge.token_opens _ .elseWord).bind (Nat.lt_succ_self _) avoids

theorem elseBranch_passes {word : Token} {block : Block} (switches : word.kind = .elseWord)
    (passes : Passes tape (within loops depth (.call Rule.block)) start block rest new) :
    Passes tape (within loops depth elseBranch) (word :: start) (some block) rest new :=
  Parser.orElse_first (bind_passes (token_passes switches) (map_passes some passes))

theorem block_passes {opening closing : Token} {inside : List Token}
    {options : List (Option Action)} (opens : opening.kind = .openBrace)
    (closes : closing.kind = .closeBrace) (short : inside.length < loops)
    (repeats : Repeats tape (actionLoop loops depth) inside options (closing :: rest) new) :
    Passes tape (within loops (depth + 1) (.call Rule.block)) (opening :: inside)
      (.braces opening.span (options.filterMap id) closing.span) rest new := by
  have loop : Passes tape (within loops depth (.manyUntil recoveredAction
      (.lookahead (.token .closeBrace)))) inside options (closing :: rest) new := by
    rw [within, Parser.runWith]
    exact repeats short
  have passes : Passes tape (within loops depth block) (opening :: inside)
      (.braces opening.span (options.filterMap id) closing.span) rest ([] ++ (new ++ [])) :=
    bind_passes (token_passes opens) (bind_passes loop (map_passes _ (token_passes closes)))
  rw [within_block]
  rw [List.nil_append, List.append_nil] at passes
  exact passes

theorem conditional_passes {keyword opening : Token} {front back : List Token} {test : Expr}
    {body : Block} {otherwise : Option Block} (deep : depth ≤ loops)
    (tests : keyword.kind = .ifWord) (derives : Derives .or used test)
    (opens : opening.kind = .openBrace) (short : (used ++ opening :: front).length < depth)
    (encloses : Passes tape (within loops depth (.call Rule.block)) (opening :: front) body back
      new)
    (switches : Passes tape (within loops depth elseBranch) back otherwise rest more) :
    Passes tape (within loops depth action) (keyword :: (used ++ opening :: front))
      (.conditional keyword.span test body otherwise) rest (new ++ more) := by
  have ends : Avoids Rung.or.continues (opening :: front) := by
    rw [avoids_cons, opens]
    decide
  have condition : Passes tape (within loops depth condition) (used ++ opening :: front) test
      (opening :: front) [] :=
    phrase_passes (condition_exact (rules_called deep)) derives ends short
  have passes : Passes tape (within loops depth conditional) (keyword :: (used ++ opening :: front))
      (.conditional keyword.span test body otherwise) rest ([] ++ ([] ++ (new ++ more))) :=
    bind_passes (token_passes tests) (bind_passes condition (bind_passes encloses
      (map_passes _ switches)))
  have refused : keyword.kind ∉ [TokenKind.stateWord] := by simp [tests]
  rw [List.nil_append, List.nil_append] at passes
  exact Parser.orElse_first (Parser.orElse_first (Parser.orElse_first
    (Parser.orElse_second (transition_awaits.refuses refused) passes)))

theorem actionAround_passes {opening : Token} {inner : List Token} {block : Block} {action : Action}
    (deep : depth ≤ loops) (opens : opening.kind = .openBrace)
    (acts : ActionAround (opening :: inner) block used action)
    (called : ∀ rest, (opening :: inner ++ rest).length < depth →
      Passes tape (within loops depth (.call Rule.block)) (opening :: inner ++ rest) block rest new)
    (ends : Avoids [.elseWord] rest) (short : (used ++ rest).length < depth) :
    Passes tape (within loops depth recoveredAction) (used ++ rest) (some action) rest new := by
  have wellFormed {used rest : List Token} {body : Block} (encloses : BlockPhrase used body)
      (short : (used ++ rest).length < depth) :
      Passes tape (within loops depth (.call Rule.block)) (used ++ rest) body rest [] :=
    phrase_passes (rules_called deep).block encloses trivial short
  refine Parser.recover_passes (map_passes some ?_)
  cases acts with
  | nested =>
    -- All other kinds of actions refuse the brace at once.
    have refused : opening.kind ∉ [TokenKind.stateWord, .ifWord, .assertWord] := by simp [opens]
    have awaits : Awaits tape
        (within loops depth ((transition.orElse conditional).orElse assertion))
        [.stateWord, .ifWord, .assertWord] :=
      orElse_awaits (orElse_awaits transition_awaits conditional_awaits) assertion_awaits
    refine Parser.orElse_first (Parser.orElse_second (awaits.refuses refused) ?_)
    exact map_passes Action.nested (called rest short)
  | @conditional keyword inside test tests derives =>
    simp only [List.cons_append, List.append_assoc, List.length_cons, List.length_append] at short ⊢
    have passes := conditional_passes deep tests derives opens (by simp; omega)
      (called rest (by simp; omega)) (elseBranch_missing ends)
    simpa using passes
  | @body keyword word inside back test otherwise tests derives switches other =>
    simp only [List.cons_append, List.append_assoc, List.length_cons, List.length_append] at short ⊢
    have passes := conditional_passes deep tests derives opens (by simp; omega)
      (called (word :: (back ++ rest)) (by simp; omega))
      (elseBranch_passes switches (wellFormed other (by simp; omega)))
    simpa using passes
  | @otherwise keyword word inside front test body tests derives encloses switches =>
    obtain @⟨front, opening', closing, actions, opens', acts, closes⟩ := encloses
    simp only [List.cons_append, List.append_assoc, List.length_cons, List.length_append] at short ⊢
    have first : Passes tape (within loops depth (.call Rule.block))
        (opening' :: (front ++ [closing]) ++ word :: (opening :: inner ++ rest)) _ _ [] :=
      wellFormed (.braces opens' acts closes) (by simp; omega)
    have second := elseBranch_passes switches (called rest (by simp; omega))
    simpa using conditional_passes deep tests derives opens' (by simp; omega) first second

theorem block_passes_item {opening closing : Token} {front back : List Token}
    {before after : List Action} {option : Option Action} (deep : depth ≤ loops)
    (opens : opening.kind = .openBrace) (first : Sequence ActionPhrase front before)
    (last : Sequence ActionPhrase back after) (closes : closing.kind = .closeBrace)
    (filled : used ≠ [])
    (avoids : ∀ rest, Avoids [.elseWord, .closeBrace] (used ++ rest))
    (short : (front ++ (used ++ (back ++ closing :: rest))).length < depth)
    (passes : Passes tape (within loops depth recoveredAction) (used ++ (back ++ closing :: rest))
      option (back ++ closing :: rest) new) :
    Passes tape (within loops (depth + 1) (.call Rule.block))
      (opening :: (front ++ (used ++ (back ++ closing :: rest))))
      (.braces opening.span (before ++ (option.toList ++ after)) closing.span) rest new := by
  have shorter : (back ++ closing :: rest).length < depth := by
    simp only [List.length_append] at short ⊢
    omega
  have ends : Repeats tape (actionLoop loops depth) (closing :: rest) [] (closing :: rest) [] :=
    actionLoop_nil closes
  have tail := actions_repeat deep last (by simp [closes]) shorter ends
  have item := actionLoop_cons filled ((avoids _).anti (by simp)) passes tail
  have whole := actions_repeat deep first ((avoids _).anti (by simp)) short item
  have passes := block_passes opens closes (Nat.lt_of_lt_of_le short deep) whole
  cases option <;> simpa using passes

/-- A block passes over the block in it as this block is passed. -/
theorem blockAround_passes {opening : Token} {inner : List Token} {block body : Block}
    (opens : opening.kind = .openBrace) (around : BlockAround (opening :: inner) block used body)
    (called : ∀ {depth rest}, depth ≤ loops → (opening :: inner ++ rest).length < depth →
      Passes tape (within loops depth (.call Rule.block)) (opening :: inner ++ rest) block rest
        new) :
    ∃ first more, used = first :: more ∧ first.kind = .openBrace ∧
      ∀ {depth rest}, depth ≤ loops → (used ++ rest).length < depth →
        Passes tape (within loops depth (.call Rule.block)) (used ++ rest) body rest new := by
  induction around with
  | here => exact ⟨opening, inner, rfl, opens, called⟩
  | @within middle used front back opening closing body action before after around acts opens first
      last closes ih =>
    obtain ⟨opening', middle, rfl, opens', called'⟩ := ih
    refine ⟨opening, _, rfl, opens, ?_⟩
    intro depth rest deep short
    -- A level further in there is one call less, which its brace makes up for.
    cases depth with
    | zero => contradiction
    | succ depth =>
      obtain ⟨filled, avoids⟩ := acts.starts opens'
      have shallow : depth ≤ loops := Nat.le_of_succ_le deep
      have short' : (front ++ (used ++ (back ++ closing :: rest))).length < depth := by
        simp only [List.length_cons, List.length_append] at short ⊢
        omega
      have shorter : (used ++ (back ++ closing :: rest)).length < depth := by
        simp only [List.length_append] at short' ⊢
        omega
      have ends : Avoids [.elseWord] (back ++ closing :: rest) :=
        sequence_avoids (fun acts => acts.avoids (by decide)) last (by simp [closes])
      have passes : Passes tape (within loops depth recoveredAction)
          (used ++ (back ++ closing :: rest)) (some action) (back ++ closing :: rest) new :=
        actionAround_passes shallow opens' acts (fun _ => called' shallow) ends shorter
      simpa using block_passes_item shallow opens first last closes filled avoids short' passes

theorem whenBlock_passes {keyword state : Token} {body : Block} (starts : keyword.kind = .whenWord)
    (names : state.kind = .identifier)
    (passes : Passes tape (within loops depth (.call Rule.block)) start body rest new) :
    Passes tape (within loops depth recoveredDefinition) (keyword :: state :: start)
      (some (.whenBlock ⟨keyword.span, ⟨state.text, state.span⟩, body⟩)) rest new := by
  have named : Passes tape (within loops depth name) (state :: start) (.ofToken state) start [] :=
    map_passes Name.ofToken (token_passes names)
  have reads : Passes tape (within loops depth whenBlock) (keyword :: state :: start)
      (.whenBlock ⟨keyword.span, ⟨state.text, state.span⟩, body⟩) rest new :=
    bind_passes (token_passes starts) (bind_passes named (map_passes _ passes))
  have refused : keyword.kind ∉ [TokenKind.stateWord, .constWord, .letWord] := by simp [starts]
  exact Parser.recover_passes (map_passes some (Parser.orElse_second
    (declarations_await.refuses refused) reads))

theorem program_passes_item {front back : List Token} {before after : Program}
    {option : Option Definition} (first : Sequence DefinitionPhrase front before)
    (last : Sequence DefinitionPhrase back after) (filled : used ≠ [])
    (short : (front ++ (used ++ back)).length < loops)
    (passes : Passes tape (within loops loops recoveredDefinition) (used ++ back) option back new) :
    Passes tape (Statecraft.Grammar.run rules loops program) (front ++ (used ++ back))
      (before ++ (option.toList ++ after)) [] new := by
  have shorter : (back ++ []).length < loops := by
    simp only [List.length_append, List.length_nil] at short ⊢
    omega
  have ends : Repeats tape (definitionLoop loops loops) [] [] [] [] := Parser.runMany_nil
  have tail := definitions_repeat (Nat.le_refl _) last shorter ends
  rw [List.append_nil] at tail
  have whole := definitions_repeat (Nat.le_refl _) first short
    (Parser.runMany_cons filled passes tail)
  have value : (before.map some ++ option :: (after.map some ++ [])).filterMap id =
      before ++ (option.toList ++ after) := by
    cases option <;> simp
  have passes := map_passes (p := .many recoveredDefinition) (List.filterMap id) (whole short)
  rw [value, List.append_nil] at passes
  exact passes

theorem broken_block_passes {opening closing first : Token} {front broken back : List Token}
    {before after : List Action} (opens : opening.kind = .openBrace)
    (acts : Sequence ActionPhrase front before)
    (breaks : Broken (.elseWord :: actionKinds) first broken)
    (acts' : Sequence ActionPhrase back after) (closes : closing.kind = .closeBrace)
    (deep : depth ≤ loops)
    (short : (opening :: (front ++ (broken ++ (back ++ [closing]))) ++ rest).length < depth) :
    Passes tape (within loops depth (.call Rule.block))
      (opening :: (front ++ (broken ++ (back ++ [closing]))) ++ rest)
      (.braces opening.span (before ++ after) closing.span) rest [.refusal actionKinds first] := by
  simp only [List.cons_append, List.append_assoc, List.nil_append] at short ⊢
  have shorter : (front ++ (broken ++ (back ++ closing :: rest))).length + 1 < depth := short
  obtain ⟨depth, rfl⟩ : ∃ less, depth = less + 1 + 1 := ⟨depth - 2, by omega⟩
  have skips : Passes tape (within loops (depth + 1) recoveredAction)
      (broken ++ (back ++ closing :: rest)) none (back ++ closing :: rest)
      [.refusal actionKinds first] := by
    refine broken_action_passes breaks ?_
    simp only [List.length_append] at shorter
    omega
  exact block_passes_item (Nat.le_of_succ_le deep) opens acts acts' closes breaks.filled
    breaks.avoids (Nat.lt_of_succ_lt_succ shorter) skips

end Grammar

theorem parse_of_passes {source : String} {program : Program} {new : List Report}
    (clean : ∀ x ∈ Lexeme.scan source, x.stray? = none)
    (passes : Passes (.ofSource source) (Statecraft.Grammar.run Grammar.rules
      (Grammar.fuel (Lexeme.scan source)) Grammar.program) (significantTokens source) program []
      new) : parse source = ⟨program, new⟩ := by
  simp only [parse, Statecraft.Grammar.parse_passes clean passes, Option.getD_some]

/-- Recovery is local. Between definitions, and between the actions of any block, tokens that start
neither are left out with one report on their first. -/
theorem parse_recovers (source : String) (clean : ∀ x ∈ Lexeme.scan source, x.stray? = none) :
    (∀ {front broken back : List Token} {before after : Program} {first : Token},
      Sequence DefinitionPhrase front before → Broken definitionKinds first broken →
      Sequence DefinitionPhrase back after →
      significantTokens source = front ++ (broken ++ back) →
      parse source = ⟨before ++ after, [.refusal definitionKinds first]⟩) ∧
    (∀ {front broken back : List Token} {before after : List Action} {first opening closing : Token}
      {program : Program},
      opening.kind = .openBrace → Sequence ActionPhrase front before →
      Broken (.elseWord :: actionKinds) first broken → Sequence ActionPhrase back after →
      closing.kind = .closeBrace →
      ProgramAround (opening :: (front ++ (broken ++ (back ++ [closing]))))
        (.braces opening.span (before ++ after) closing.span) (significantTokens source) program →
      parse source = ⟨program, [.refusal actionKinds first]⟩) := by
  have enough : (significantTokens source).length < Grammar.fuel (Lexeme.scan source) :=
    Nat.lt_succ_self _
  constructor
  · intro front broken back before after first defines breaks defines' tokens
    have short := tokens ▸ enough
    refine parse_of_passes clean ?_
    rw [tokens]
    refine Grammar.program_passes_item defines defines' breaks.filled short
      (Grammar.broken_definition_passes breaks ?_)
    simp only [List.length_append] at short
    omega
  · intro front broken back before after first opening closing program opens acts breaks acts'
      closes around
    refine parse_of_passes clean ?_
    generalize significantTokens source = tokens at around enough
    obtain @⟨keyword, state, used, front, back, body, before, after, defines, starts, names, around,
      defines'⟩ := around
    obtain ⟨-, -, -, -, called⟩ := Grammar.blockAround_passes opens around
      (Grammar.broken_block_passes opens acts breaks acts' closes)
    have short : (used ++ back).length < Grammar.fuel (Lexeme.scan source) := by
      simp only [List.length_append, List.length_cons] at enough ⊢
      omega
    have filled : keyword :: state :: used ≠ [] := by simp
    exact Grammar.program_passes_item defines defines' filled enough
      (Grammar.whenBlock_passes starts names (called (Nat.le_refl _) short))

/-- Keywords and an open brace between two definitions. -/
def brokenDefinition : String := "state\x7bA\x7d)let\x7b;when A\x7b\x7d"

/-- A keyword out of place before an action in the block of a conditional. -/
def brokenAction : String := "when A\x7bif x\x7b)if;\x7b\x7d\x7d\x7d"

theorem parse_recovers_broken :
    ((∀ x ∈ Lexeme.scan brokenDefinition, x.stray? = none) ∧
      ∃ first, (significantTokens brokenDefinition)[4]? = some first ∧
        (parse brokenDefinition).reports = [.refusal definitionKinds first] ∧
        (parse brokenDefinition).value.length = 2) ∧
    (∀ x ∈ Lexeme.scan brokenAction, x.stray? = none) ∧
      ∃ first, (significantTokens brokenAction)[6]? = some first ∧
        (parse brokenAction).reports = [.refusal actionKinds first] ∧
        (parse brokenAction).value.length = 1 := by
  have clean : ∀ x ∈ Lexeme.scan brokenDefinition, x.stray? = none := by decide +kernel
  have clean' : ∀ x ∈ Lexeme.scan brokenAction, x.stray? = none := by decide +kernel
  refine ⟨⟨clean, ?_⟩, clean', ?_⟩
  · have kinds : (significantTokens brokenDefinition).map Token.kind = [.stateWord, .openBrace,
        .identifier, .closeBrace, .closeParen, .letWord, .openBrace, .semicolon, .whenWord,
        .identifier, .openBrace, .closeBrace] := by decide +kernel
    simp only [List.map_eq_cons_iff, List.map_eq_nil_iff] at kinds
    obtain ⟨_, _, tokens, lists, _, _, rfl, opens, _, _, rfl, enters, _, _, rfl, closes, first, _,
      rfl, breaks, second, _, rfl, keyword, third, _, rfl, brace, _, _, rfl, stops, _, _, rfl,
      starts, _, _, rfl, names, _, _, rfl, opens', _, _, rfl, closes', rfl⟩ := kinds
    have plain : ∀ t ∈ [first, second, third], t.kind ∉ [TokenKind.semicolon, .closeBrace] := by
      simp [breaks, keyword, brace]
    have recovers := (parse_recovers brokenDefinition clean).1
      (.cons (.states lists opens (.last (.labelled .nil enters)) closes) .nil)
      (.upTo (by simp [breaks, definitionKinds]) plain stops)
      (.cons (.whenBlock starts names (.braces opens' .nil closes')) .nil) tokens
    exact ⟨first, by simp [tokens], by simp [recovers], by simp [recovers]⟩
  · have kinds : (significantTokens brokenAction).map Token.kind = [.whenWord, .identifier,
        .openBrace, .ifWord, .identifier, .openBrace, .closeParen, .ifWord, .semicolon, .openBrace,
        .closeBrace, .closeBrace, .closeBrace] := by decide +kernel
    simp only [List.map_eq_cons_iff, List.map_eq_nil_iff] at kinds
    obtain ⟨_, _, tokens, starts, _, _, rfl, names, _, _, rfl, opens, _, _, rfl, tests, _, _, rfl,
      refers, opening, _, rfl, opens', first, _, rfl, breaks, second, _, rfl, keyword, stop, _, rfl,
      stops, nested, _, rfl, nests, closed, _, rfl, closes, closing, _, rfl, closes', _, _, rfl,
      closes'', rfl⟩ := kinds
    have plain : ∀ t ∈ [first, second], t.kind ∉ [TokenKind.semicolon, .closeBrace] := by
      simp [breaks, keyword]
    have broken : Broken (.elseWord :: actionKinds) first [first, second, stop] :=
      .upTo (by simp [breaks, actionKinds]) plain stops
    have nothing := ActionPhrase.nested (.braces nests .nil closes)
    have test := Derives.disjunct (.conjunct (.affirmed (.unrelated (.addend (.multiplicand
      (.unsigned (.name refers)))))))
    have recovers := (parse_recovers brokenAction clean').2 opens' .nil broken (.cons nothing .nil)
      closes' (by
        rw [tokens]
        exact .when .nil starts names
          (.within .here (.conditional tests test) opens .nil .nil closes'') .nil)
    exact ⟨first, by simp [tokens], by simp [recovers], by simp [recovers]⟩

end Statecraft.Source
