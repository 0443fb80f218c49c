import Statecraft.Position

/-! The kinds of tokens in order of declaration, their printed names, and
tokens themselves. The order matters: the scanner tries the kinds in it. -/
namespace Statecraft

/-- What a token is. A number outside the declared kinds is kept as `unlisted`;
the scanner never produces one. -/
inductive TokenKind where
  | whitespace | comment
  | semicolon | comma | dot | atSign
  | openParen | closeParen | openBrace | closeBrace | openBracket | closeBracket
  | number | boolean | string
  | stateWord | assertWord | whenWord | letWord | constWord | ifWord | elseWord
  | assign | notEqual | equal | lessEqual | less | greaterEqual | greater
  | plus | minus | times | divide | modulo | andWord | orWord | notWord
  | identifier
  | unlisted (code : Int)
deriving DecidableEq, Repr, Inhabited

namespace TokenKind

def all : List TokenKind :=
  [whitespace, comment, semicolon, comma, dot, atSign, openParen, closeParen, openBrace,
    closeBrace, openBracket, closeBracket, number, boolean, string, stateWord, assertWord,
    whenWord, letWord, constWord, ifWord, elseWord, assign, notEqual, equal, lessEqual, less,
    greaterEqual, greater, plus, minus, times, divide, modulo, andWord, orWord, notWord,
    identifier]

def ofCode : Int → TokenKind
  | .ofNat n => all[n]?.getD (.unlisted n)
  | code => .unlisted code

def name : TokenKind → String
  | whitespace => "WHITESPACE"
  | comment => "COMMENT"
  | semicolon => "SEMICOLON"
  | comma => "COMMA"
  | dot => "DOT"
  | atSign => "AT"
  | openParen => "OPEN_PARENTHESIS"
  | closeParen => "CLOSE_PARENTHESIS"
  | openBrace => "OPEN_CURLY_BRACE"
  | closeBrace => "CLOSE_CURLY_BRACE"
  | openBracket => "OPEN_BRACKET"
  | closeBracket => "CLOSE_BRACKET"
  | number => "LITERAL_NUMBER"
  | boolean => "LITERAL_BOOLEAN"
  | string => "LITERAL_STRING"
  | stateWord => "KEYWORD_STATE"
  | assertWord => "KEYWORD_ASSERT"
  | whenWord => "KEYWORD_WHEN"
  | letWord => "KEYWORD_LET"
  | constWord => "KEYWORD_CONST"
  | ifWord => "KEYWORD_IF"
  | elseWord => "KEYWORD_ELSE"
  | assign => "OPERATOR_ASSIGN"
  | notEqual => "OPERATOR_NOT_EQUALS"
  | equal => "OPERATOR_EQUALS"
  | lessEqual => "OPERATOR_LESS_OR_EQUAL"
  | less => "OPERATOR_LESS"
  | greaterEqual => "OPERATOR_GREATER_OR_EQUAL"
  | greater => "OPERATOR_GREATER"
  | plus => "OPERATOR_PLUS"
  | minus => "OPERATOR_MINUS"
  | times => "OPERATOR_MULTIPLY"
  | divide => "OPERATOR_DIVIDE"
  | modulo => "OPERATOR_MODULO"
  | andWord => "OPERATOR_AND"
  | orWord => "OPERATOR_OR"
  | notWord => "OPERATOR_NOT"
  | identifier => "IDENTIFIER"
  | unlisted _ => "UNKNOWN"

def description : TokenKind → String
  | whitespace => "whitespace"
  | comment => "comment"
  | semicolon => "';'"
  | comma => "','"
  | dot => "'.'"
  | atSign => "'@'"
  | openParen => "'('"
  | closeParen => "')'"
  | openBrace => "'\x7b'"
  | closeBrace => "'\x7d'"
  | openBracket => "'['"
  | closeBracket => "']'"
  | number => "number literal"
  | boolean => "boolean literal"
  | string => "string literal"
  | stateWord => "'state'"
  | assertWord => "'assert'"
  | whenWord => "'when'"
  | letWord => "'let'"
  | constWord => "'const'"
  | ifWord => "'if'"
  | elseWord => "'else'"
  | assign => "':='"
  | notEqual => "'!='"
  | equal => "'='"
  | lessEqual => "'<='"
  | less => "'<'"
  | greaterEqual => "'>='"
  | greater => "'>'"
  | plus => "'+'"
  | minus => "'-'"
  | times => "'*'"
  | divide => "'/'"
  | modulo => "'%'"
  | andWord => "'and'"
  | orWord => "'or'"
  | notWord => "'not'"
  | identifier => "identifier"
  | unlisted _ => "unknown"

/-- Blanks and comments never reach a parser. -/
def ignored : TokenKind → Bool
  | whitespace | comment => true
  | _ => false

end TokenKind

structure Token where
  kind : TokenKind
  text : String
  span : Selection
deriving DecidableEq, Repr, Inhabited

namespace Token

/-- Only a newline, a tab and a double quote are escaped. -/
def quoted (text : String) : String :=
  let escape (c : Char) : List Char :=
    if c = '\n' then ['\\', 'n'] else if c = '\t' then ['\\', 't']
    else if c = '"' then ['\\', '"'] else [c]
  String.ofList ('"' :: text.toList.flatMap escape ++ ['"'])

/-- For instance `IDENTIFIER "count" at 3:5-9`. -/
def describe (t : Token) : String :=
  t.kind.name ++ " " ++ quoted t.text ++ " at " ++ t.span.text

end Token
end Statecraft
