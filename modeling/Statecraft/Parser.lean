import Statecraft.Report

/-! Parsers as terms. A parser reads tokens and either yields a value or fails
with a report. A failure whose report starts where the parser started counts as
"no match" and lets an alternative be tried; any other failure is final. Rules
that refer to themselves or to each other are named by `Rule` and called, so a
grammar is a table from rules to parsers. -/
namespace Statecraft

/-- A parser of values of the given type that may call the rules of a grammar. -/
inductive Parser (Rule : Type → Type) : Type → Type 1 where
  /-- Consumes one token of the kind. -/
  | token (kind : TokenKind) : Parser Rule Token
  /-- Yields a value and consumes nothing. -/
  | succeed {α : Type} (value : α) : Parser Rule α
  /-- Fails at the current token. -/
  | fail {α : Type} (kind : ReportKind) : Parser Rule α
  /-- Succeeds only when all tokens are read. -/
  | finish : Parser Rule Unit
  /-- Runs a parser and then the one chosen by its value. -/
  | bind {α β : Type} (first : Parser Rule α) (next : α → Parser Rule β) : Parser Rule β
  /-- Tries the second parser when the first one does not match. -/
  | orElse {α : Type} (first second : Parser Rule α) : Parser Rule α
  /-- Gives a failure another kind. -/
  | withKind {α : Type} (body : Parser Rule α) (kind : ReportKind) : Parser Rule α
  /-- Records a failure and goes on with the fallback. -/
  | recover {α : Type} (body fallback : Parser Rule α) : Parser Rule α
  /-- Returns to the start when the body fails. -/
  | attempt {α : Type} (body : Parser Rule α) : Parser Rule α
  /-- Returns to the start whether the body fails or not. -/
  | lookahead {α : Type} (body : Parser Rule α) : Parser Rule α
  /-- Skips tokens one by one until the body succeeds. -/
  | skipUntil {α : Type} (body : Parser Rule α) : Parser Rule α
  /-- Repeats the body until it does not match or the tokens end. -/
  | many {α : Type} (body : Parser Rule α) : Parser Rule (List α)
  /-- Repeats the body until the stop succeeds; the stop is tried first each time. -/
  | manyUntil {α β : Type} (body : Parser Rule α) (stop : Parser Rule β) : Parser Rule (List α)
  /-- Any number of bodies with delimiters between them; one may follow the last. -/
  | separated {α β : Type} (body : Parser Rule α) (delimiter : Parser Rule β) :
      Parser Rule (List α)
  /-- One or more terms with operators between them, combined from the left. -/
  | chain {α β : Type} (term : Parser Rule α) (operator : Parser Rule β)
      (combine : α → β → α → α) : Parser Rule α
  /-- Runs a rule of the grammar. -/
  | call {α : Type} (rule : Rule α) : Parser Rule α

namespace Parser

variable {Rule : Type → Type} {α β γ : Type}

def map (p : Parser Rule α) (f : α → β) : Parser Rule β := p.bind fun a => .succeed (f a)

def as (p : Parser Rule α) (value : β) : Parser Rule β := p.map fun _ => value

def andThen (p : Parser Rule α) (q : Parser Rule β) : Parser Rule β := p.bind fun _ => q

def followedBy (p : Parser Rule α) (q : Parser Rule β) : Parser Rule α :=
  p.bind fun a => q.map fun _ => a

def between (left : Parser Rule α) (p : Parser Rule β) (right : Parser Rule γ) :
    Parser Rule β :=
  left.andThen (p.followedBy right)

def oneOf (first : Parser Rule α) (others : List (Parser Rule α)) : Parser Rule α :=
  others.foldl orElse first

def anyToken (first : TokenKind) (others : List TokenKind) : Parser Rule Token :=
  oneOf (.token first) (others.map .token)

/-- Yields the given value when the parser does not match. -/
def optional (p : Parser Rule α) (value : α) : Parser Rule α := p.orElse (.succeed value)

/-- Records a failure under another kind and goes on with the fallback. -/
def recoverAs (p : Parser Rule α) (kind : ReportKind) (fallback : Parser Rule α) :
    Parser Rule α :=
  (p.withKind kind).recover fallback

end Parser
end Statecraft
