import Statecraft.Parser
import Statecraft.Reader

/-! Running a parser. The context holds the reader and the reports recorded so
far; stray characters are reported when the reader passes them. Loops and rule
calls take fuel, and running out of it is told apart from every other outcome. -/
namespace Statecraft

inductive Stuck where
  | outOfFuel
  | bookmark (error : BookmarkError)
deriving DecidableEq, Repr

inductive Outcome (α : Type) where
  | ok (value : α)
  | failed (report : Report)
  | stuck (cause : Stuck)

def Outcome.map {α β : Type} (f : α → β) : Outcome α → Outcome β
  | .ok value => .ok (f value)
  | .failed report => .failed report
  | .stuck cause => .stuck cause

/-- What parsers share while they run. -/
structure Context where
  reader : Reader
  reports : List Report

/-- A parser that has been given its rules and its fuel. -/
abbrev Runner (α : Type) := Context → Outcome α × Context

namespace Context

def strayReport (s : Stray) : Report :=
  .invalidToken (.char s.location) (String.ofList [s.char])

def record (ctx : Context) (r : Report) : Context := { ctx with reports := ctx.reports ++ [r] }

/-- Takes over a reader and reports the strays it passed. -/
def take (ctx : Context) (moved : Reader × List Stray) : Context :=
  ⟨moved.1, ctx.reports ++ moved.2.map strayReport⟩

def start (lexemes : List Lexeme) : Context :=
  let (reader, strays) := Reader.start 0 lexemes
  ⟨reader, strays.map strayReport⟩

def advance? (ctx : Context) : Option Context := ctx.reader.advance?.map ctx.take

def drain (ctx : Context) : Context := ctx.take ctx.reader.drain

/-- Returns to a bookmark and goes on, or stops when the reader refuses. -/
def rewind {α : Type} (ctx : Context) (mark : Bookmark) (next : Runner α) : Outcome α × Context :=
  match ctx.reader.backtrack mark with
  | .ok reader => next { ctx with reader }
  | .error e => (.stuck (.bookmark e), ctx)

def discard (ctx : Context) (mark : Bookmark) : Context :=
  { ctx with reader := ctx.reader.discard mark }

end Context

namespace Parser

variable {Rule : Type → Type} {α β : Type}

/-- The failure happened after the parser had moved away from its start. -/
def progressed (start : Location) (r : Report) : Bool := r.location ≠ start

/-- Runs a parser under a new bookmark, which is released at the end. -/
def marked (run : Runner α) (finish : Bookmark → Outcome α → Runner α) : Runner α := fun ctx =>
  let (mark, reader) := ctx.reader.bookmark
  let (outcome, after) := run { ctx with reader }
  let (result, last) := finish mark outcome after
  (result, last.discard mark)

def runToken (kind : TokenKind) : Runner Token := fun ctx =>
  match ctx.reader.current? with
  | none =>
      (.failed { kind := .unexpectedEndOfInput, selection := ctx.reader.selection,
                 expected := [kind] }, ctx)
  | some t =>
      if t.kind = kind then (.ok t, ctx.advance?.getD ctx)
      else
        (.failed { kind := .unexpectedToken, selection := t.span, expected := [kind],
                   unexpected := some t.kind }, ctx)

/-- The report on a token that follows the end of what was to be read. -/
def trailing (t : Token) : Report :=
  { kind := .endOfInputExpected, selection := t.span, unexpected := some t.kind }

def runFinish : Runner Unit := fun ctx =>
  match ctx.reader.current? with
  | none => (.ok (), ctx)
  | some t => (.failed (trailing t), ctx)

/-- Tries the second runner when the first does not match. -/
def runOrElse (first second : Runner α) : Runner α := fun ctx =>
  let start := ctx.reader.location
  match first ctx with
  | (.failed r, ctx) =>
      if progressed start r then (.failed r, ctx)
      else
        match second ctx with
        | (.failed r', ctx) =>
            (.failed (if progressed start r' then r' else r.mostRelevant r'), ctx)
        | other => other
  | other => other

def runSkipUntil (body : Runner α) : Nat → Runner α
  | 0, ctx => (.stuck .outOfFuel, ctx)
  | fuel + 1, ctx =>
      match body ctx with
      | (.failed r, ctx) =>
          match ctx.advance? with
          | some next => runSkipUntil body fuel next
          | none => (.failed r, ctx)
      | other => other

def prepend (value : α) (rest : Outcome (List α) × Context) : Outcome (List α) × Context :=
  (rest.1.map (value :: ·), rest.2)

/-- Repeats the runner until it does not match or the tokens end. -/
def runMany (body : Runner α) : Nat → Runner (List α)
  | 0, ctx => (.stuck .outOfFuel, ctx)
  | fuel + 1, ctx =>
      if ctx.reader.atEnd then (.ok [], ctx)
      else
        let start := ctx.reader.location
        match body ctx with
        | (.ok value, ctx) => prepend value (runMany body fuel ctx)
        | (.failed r, ctx) => if progressed start r then (.failed r, ctx) else (.ok [], ctx)
        | (.stuck cause, ctx) => (.stuck cause, ctx)

/-- Repeats the runner until the stop succeeds. -/
def runManyUntil (body : Runner α) (stop : Runner β) : Nat → Runner (List α)
  | 0, ctx => (.stuck .outOfFuel, ctx)
  | fuel + 1, ctx =>
      let start := ctx.reader.location
      match stop ctx with
      | (.ok _, ctx) => (.ok [], ctx)
      | (.stuck cause, ctx) => (.stuck cause, ctx)
      | (.failed missing, ctx) =>
          if progressed start missing || ctx.reader.atEnd then (.failed missing, ctx)
          else
            match body ctx with
            | (.ok value, ctx) => prepend value (runManyUntil body stop fuel ctx)
            | (.failed r, ctx) =>
                (.failed (if progressed start r then r else missing.mostRelevant r), ctx)
            | (.stuck cause, ctx) => (.stuck cause, ctx)

/-- A failure ends a delimited list when it is no match or the tokens are over. -/
def endsList (start : Location) (r : Report) (ctx : Context) : Bool :=
  !progressed start r || ctx.reader.atEnd

/-- Repeats the runner with delimiters between the repetitions. -/
def runSeparated (body : Runner α) (delimiter : Runner β) : Nat → Runner (List α)
  | 0, ctx => (.stuck .outOfFuel, ctx)
  | fuel + 1, ctx =>
      let start := ctx.reader.location
      match body ctx with
      | (.failed r, ctx) => if endsList start r ctx then (.ok [], ctx) else (.failed r, ctx)
      | (.stuck cause, ctx) => (.stuck cause, ctx)
      | (.ok value, ctx) =>
          let start := ctx.reader.location
          match delimiter ctx with
          | (.ok _, ctx) => prepend value (runSeparated body delimiter fuel ctx)
          | (.failed r, ctx) =>
              if endsList start r ctx then (.ok [value], ctx) else (.failed r, ctx)
          | (.stuck cause, ctx) => (.stuck cause, ctx)

/-- Combines further terms with the value read so far. -/
def runChain (term : Runner α) (operator : Runner β) (combine : α → β → α → α) :
    Nat → α → Runner α
  | 0, _, ctx => (.stuck .outOfFuel, ctx)
  | fuel + 1, left, ctx =>
      let start := ctx.reader.location
      match operator ctx with
      | (.failed r, ctx) => if progressed start r then (.failed r, ctx) else (.ok left, ctx)
      | (.stuck cause, ctx) => (.stuck cause, ctx)
      | (.ok op, ctx) =>
          match term ctx with
          | (.ok right, ctx) => runChain term operator combine fuel (combine left op right) ctx
          | other => other

/-- Runs a parser, given how rules are run and how often a loop may repeat. -/
def runWith (rules : ∀ {γ : Type}, Rule γ → Runner γ) (loops : Nat) :
    {α : Type} → Parser Rule α → Runner α
  | _, .token kind => runToken kind
  | _, .succeed value => fun ctx => (.ok value, ctx)
  | _, .fail kind => fun ctx => (.failed { kind, selection := ctx.reader.selection }, ctx)
  | _, .finish => runFinish
  | _, .bind first next => fun ctx =>
      match runWith rules loops first ctx with
      | (.ok value, ctx) => runWith rules loops (next value) ctx
      | (.failed r, ctx) => (.failed r, ctx)
      | (.stuck cause, ctx) => (.stuck cause, ctx)
  | _, .orElse first second => runOrElse (runWith rules loops first) (runWith rules loops second)
  | _, .withKind body kind => fun ctx =>
      match runWith rules loops body ctx with
      | (.failed r, ctx) => (.failed { r with kind }, ctx)
      | other => other
  | _, .recover body fallback => fun ctx =>
      match runWith rules loops body ctx with
      | (.failed r, ctx) => runWith rules loops fallback (ctx.record r)
      | other => other
  | _, .attempt body => marked (runWith rules loops body) fun mark outcome ctx =>
      match outcome with
      | .failed r => ctx.rewind mark fun ctx => (.failed r, ctx)
      | other => (other, ctx)
  | _, .lookahead body => marked (runWith rules loops body) fun mark outcome ctx =>
      ctx.rewind mark fun ctx =>
        match outcome with
        | .failed r => (.failed { r with selection := ctx.reader.selection }, ctx)
        | other => (other, ctx)
  | _, .skipUntil body => runSkipUntil (runWith rules loops body) loops
  | _, .many body => runMany (runWith rules loops body) loops
  | _, .manyUntil body stop =>
      runManyUntil (runWith rules loops body) (runWith rules loops stop) loops
  | _, .separated body delimiter =>
      runSeparated (runWith rules loops body) (runWith rules loops delimiter) loops
  | _, .chain term operator combine => fun ctx =>
      match runWith rules loops term ctx with
      | (.ok value, ctx) =>
          runChain (runWith rules loops term) (runWith rules loops operator) combine loops value ctx
      | other => other
  | _, .call rule => rules rule

end Parser

abbrev Grammar (Rule : Type → Type) := {α : Type} → Rule α → Parser Rule α

namespace Grammar

variable {Rule : Type → Type} {α : Type}

/-- Runs a rule; at most `depth` calls may be nested in each other. -/
def runRule (grammar : Grammar Rule) (loops : Nat) : Nat → {α : Type} → Rule α → Runner α
  | 0, _, _, ctx => (.stuck .outOfFuel, ctx)
  | depth + 1, _, rule, ctx =>
      (grammar rule).runWith (fun r => runRule grammar loops depth r) loops ctx

/-- Runs a parser of the grammar with the same fuel for loops and for nesting. -/
def run (grammar : Grammar Rule) (fuel : Nat) (p : Parser Rule α) : Runner α :=
  p.runWith (fun r => runRule grammar fuel fuel r) fuel

structure Parsed (α : Type) where
  value : Option α
  reports : List Report

/-- Runs a parser over a whole source. Tokens left over are reported and read,
so every stray character is reported. -/
def parse (grammar : Grammar Rule) (fuel : Nat) (p : Parser Rule α) (lexemes : List Lexeme) :
    Parsed α :=
  match grammar.run fuel p (Context.start lexemes) with
  | (.ok value, ctx) =>
      match ctx.reader.current? with
      | none => ⟨some value, ctx.reports⟩
      | some t => ⟨some value, (ctx.record (Parser.trailing t)).drain.reports⟩
  | (.failed r, ctx) => ⟨none, (ctx.record r).reports⟩
  | (.stuck _, ctx) => ⟨none, ctx.reports⟩

end Grammar
end Statecraft
