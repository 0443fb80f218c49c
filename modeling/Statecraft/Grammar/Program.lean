import Statecraft.Grammar.Expr
import Statecraft.Source.Definition
import Statecraft.Parser.Run

/-! The grammar of blocks and definitions. A missing `;` is reported and
tolerated. A broken action skips to its `;` or to the `}` of its block, a broken
definition skips past the next `;` or `}`; each leaves one report and no tree. -/
namespace Statecraft.Source
namespace Grammar

open Statecraft.Parser (token succeed call oneOf anyToken many manyUntil separated lookahead
  skipUntil)

def name : Parser Rule Name := (token .identifier).map Name.ofToken

/-- A `;` that may be missing. -/
def terminator : Parser Rule Unit := ((token .semicolon).as ()).recover (succeed ())

def assigned : Parser Rule Name := name.followedBy (token .assign)

def statementValue : Parser Rule Expr := (call .expression).followedBy terminator

/-- A condition, which is reported when a block follows in its place. -/
def condition : Parser Rule Expr :=
  ((lookahead (token .openBrace)).andThen
    ((Parser.fail .conditionExpected).recover (succeed .invalid))).orElse (call .expression)

def transition : Parser Rule Action :=
  ((token .stateWord).followedBy (token .assign)).bind fun keyword =>
    (name.followedBy terminator).map fun target => .transition keyword.span target

def assignment : Parser Rule Action :=
  assigned.bind fun target => statementValue.map fun value => .assignment target value

def conditional : Parser Rule Action :=
  (token .ifWord).bind fun keyword =>
    condition.bind fun test =>
      (call .block).bind fun body =>
        (((token .elseWord).andThen ((call .block).map some)).optional none).map fun otherwise =>
          .conditional keyword.span test body otherwise

def assertion : Parser Rule Action :=
  (token .assertWord).bind fun keyword =>
    (condition.followedBy terminator).map fun test => .assertion keyword.span test

def action : Parser Rule Action :=
  oneOf transition [conditional, assertion, (call .block).map .nested, assignment]

/-- Skips past a `;` or up to a `}`. -/
def resyncAction : Parser Rule Unit :=
  skipUntil (((token .semicolon).as ()).orElse ((lookahead (token .closeBrace)).as ()))

/-- An action, or nothing for one that was reported. -/
def recoveredAction : Parser Rule (Option Action) :=
  (action.map some).recover (resyncAction.as none)

def block : Parser Rule Block :=
  (token .openBrace).bind fun opening =>
    (manyUntil recoveredAction (lookahead (token .closeBrace))).bind fun actions =>
      (token .closeBrace).map fun closing =>
        .braces opening.span (actions.filterMap id) closing.span

/-- `[name value]` before a state. -/
def annotated : Parser Rule Attribute :=
  Parser.between (token .openBracket)
    (name.bind fun label => (token .string).map fun value =>
      ⟨label, unquoted value.text, value.span⟩)
    (token .closeBracket)

def stateEntry : Parser Rule StateEntry :=
  (many annotated).bind fun attributes => name.map fun label => ⟨label, attributes⟩

def stateList : Parser Rule Definition :=
  (token .stateWord).bind fun keyword =>
    ((token .openBrace).andThen (separated stateEntry (token .comma))).bind fun states =>
      (token .closeBrace).map fun closing => .states ⟨keyword.span, states, closing.span⟩

def declaration (kind : TokenKind) (storage : Storage) : Parser Rule Definition :=
  (token kind).bind fun keyword =>
    assigned.bind fun target =>
      statementValue.map fun value => .declaration ⟨storage, keyword.span, target, value⟩

def whenBlock : Parser Rule Definition :=
  (token .whenWord).bind fun keyword =>
    name.bind fun state =>
      (call .block).map fun body => .whenBlock ⟨keyword.span, state, body⟩

def definition : Parser Rule Definition :=
  oneOf stateList
    [declaration .constWord .fixed, declaration .letWord .assignable, whenBlock]

/-- Skips past a `;` or a `}`, or to the end. -/
def resyncDefinition : Parser Rule Unit :=
  skipUntil (((anyToken .semicolon [.closeBrace]).as ()).orElse Parser.finish)

def recoveredDefinition : Parser Rule (Option Definition) :=
  (definition.map some).recover (resyncDefinition.as none)

def program : Parser Rule Program :=
  (many recoveredDefinition).map fun definitions => definitions.filterMap id

def rules : Statecraft.Grammar Rule
  | _, .expression => expression
  | _, .block => block

/-- Fuel for a source: one more than its tokens. Every repetition and every
nested rule starts at a later token than the one before. -/
def fuel (lexemes : List Lexeme) : Nat := (lexemes.filterMap Lexeme.significant?).length + 1

end Grammar

structure Reading (α : Type) where
  value : α
  reports : List Report

def parse (source : String) : Reading Program :=
  let lexemes := Lexeme.scan source
  let parsed := Grammar.rules.parse (Grammar.fuel lexemes) Grammar.program lexemes
  ⟨parsed.value.getD [], parsed.reports⟩

def parseExpression (source : String) : Reading Expr :=
  let lexemes := Lexeme.scan source
  let parsed := Grammar.rules.parse (Grammar.fuel lexemes) (.call .expression) lexemes
  ⟨parsed.value.getD .invalid, parsed.reports⟩

end Statecraft.Source
