import Statecraft.Token

/-! Scanning a text into lexemes. Each token kind has a pattern, which says how
many leading characters of the remaining text it covers; the first declared kind
that covers at least one character wins. A character that no kind covers becomes
a stray lexeme, so the lexemes together hold every character of the text. -/
namespace Statecraft

/-- Space, tab, newline, form feed and carriage return. -/
def isBlank (c : Char) : Bool :=
  c = ' ' || c = '\t' || c = '\n' || c = '\x0c' || c = '\r'

def isNameStart (c : Char) : Bool := c.isAlpha || c = '_'

def isNameRest (c : Char) : Bool := c.isAlphanum || c = '_'

/-- How a token kind recognises its text. -/
inductive Pattern where
  /-- A run of blanks. -/
  | blanks
  /-- From `#` to the end of the line, the newline included. -/
  | comment
  /-- Exactly these characters. -/
  | symbol (text : List Char)
  /-- One of these words, with no name character after it. -/
  | words (choices : List (List Char))
  /-- Digits, and after a point more digits. -/
  | number
  /-- Any text between two single quotes. -/
  | quotation
  /-- A letter or underscore and all name characters after it. -/
  | name
  /-- Nothing. -/
  | nothing
deriving Repr

namespace Pattern

/-- The word stands at the start of `cs` and ends there. -/
def wordAt (word cs : List Char) : Bool :=
  word.isPrefixOf cs && !((cs.drop word.length).head?.any isNameRest)

/-- How many leading characters of the text the pattern covers. -/
def length : Pattern → List Char → Nat
  | blanks, cs => (cs.takeWhile isBlank).length
  | comment, cs =>
      match cs with
      | '#' :: rest =>
          let line := (rest.takeWhile (· ≠ '\n')).length
          1 + line + (if (rest.drop line).isEmpty then 0 else 1)
      | _ => 0
  | symbol text, cs => if text.isPrefixOf cs then text.length else 0
  | words choices, cs =>
      match choices.find? (wordAt · cs) with
      | some word => word.length
      | none => 0
  | number, cs =>
      let whole := (cs.takeWhile Char.isDigit).length
      if whole = 0 then 0
      else
        match cs.drop whole with
        | '.' :: rest =>
            let places := (rest.takeWhile Char.isDigit).length
            if places = 0 then whole else whole + 1 + places
        | _ => whole
  | quotation, cs =>
      match cs with
      | '\'' :: rest =>
          let inside := (rest.takeWhile (· ≠ '\'')).length
          if (rest.drop inside).isEmpty then 0 else inside + 2
      | _ => 0
  | name, cs =>
      match cs with
      | c :: rest => if isNameStart c then 1 + (rest.takeWhile isNameRest).length else 0
      | [] => 0
  | nothing, _ => 0

end Pattern

namespace TokenKind

def pattern : TokenKind → Pattern
  | whitespace => .blanks
  | comment => .comment
  | semicolon => .symbol [';']
  | comma => .symbol [',']
  | dot => .symbol ['.']
  | atSign => .symbol ['@']
  | openParen => .symbol ['(']
  | closeParen => .symbol [')']
  | openBrace => .symbol ['{']
  | closeBrace => .symbol ['}']
  | openBracket => .symbol ['[']
  | closeBracket => .symbol [']']
  | number => .number
  | boolean => .words ["true".toList, "false".toList]
  | string => .quotation
  | stateWord => .words ["state".toList]
  | assertWord => .words ["assert".toList]
  | whenWord => .words ["when".toList]
  | letWord => .words ["let".toList]
  | constWord => .words ["const".toList]
  | ifWord => .words ["if".toList]
  | elseWord => .words ["else".toList]
  | assign => .symbol [':', '=']
  | notEqual => .symbol ['!', '=']
  | equal => .symbol ['=']
  | lessEqual => .symbol ['<', '=']
  | less => .symbol ['<']
  | greaterEqual => .symbol ['>', '=']
  | greater => .symbol ['>']
  | plus => .symbol ['+']
  | minus => .symbol ['-']
  | times => .symbol ['*']
  | divide => .symbol ['/']
  | modulo => .symbol ['%']
  | andWord => .words ["and".toList]
  | orWord => .words ["or".toList]
  | notWord => .words ["not".toList]
  | identifier => .name
  | unlisted _ => .nothing

def matchLength (kind : TokenKind) (cs : List Char) : Nat := kind.pattern.length cs

/-- The first declared kind that covers something, and how much it covers. -/
def firstMatch? (cs : List Char) : Option (TokenKind × Nat) :=
  all.findSome? fun kind =>
    let n := kind.matchLength cs
    if n = 0 then none else some (kind, n)

end TokenKind

structure Stray where
  location : Location
  char : Char
deriving DecidableEq, Repr

inductive Lexeme where
  | token (token : Token)
  | stray (stray : Stray)
deriving DecidableEq, Repr

namespace Lexeme

def chars : Lexeme → List Char
  | token t => t.text.toList
  | stray s => [s.char]

def start : Lexeme → Location
  | token t => t.span.start
  | stray s => s.location

/-- Where the character after the lexeme stands. -/
def next (x : Lexeme) : Location := x.start.after x.chars

/-- The token, blanks and comments included. -/
def token? : Lexeme → Option Token
  | token t => some t
  | stray _ => none

def significant? : Lexeme → Option Token
  | token t => if t.kind.ignored then none else some t
  | stray _ => none

def stray? : Lexeme → Option Stray
  | token _ => none
  | stray s => some s

/-- The token of the given kind and characters at a location. Its range ends at
its last character. -/
def ofChars (kind : TokenKind) (start : Location) (c : Char) (rest : List Char) : Lexeme :=
  .token ⟨kind, String.ofList (c :: rest), ⟨start, start.after (c :: rest).dropLast⟩⟩

/-- All lexemes of a text whose first character stands at `start`. -/
def scanFrom (start : Location) : List Char → List Lexeme
  | [] => []
  | c :: rest =>
      match TokenKind.firstMatch? (c :: rest) with
      | some (kind, n) =>
          let tail := rest.take (n - 1)
          ofChars kind start c tail :: scanFrom (start.after (c :: tail)) (rest.drop (n - 1))
      | none => .stray ⟨start, c⟩ :: scanFrom (start.step c) rest
  termination_by cs => cs.length

def scan (source : String) : List Lexeme := scanFrom .first source.toList

end Lexeme

/-- The tokens of a source text that a parser sees. -/
def significantTokens (source : String) : List Token :=
  (Lexeme.scan source).filterMap Lexeme.significant?

end Statecraft
