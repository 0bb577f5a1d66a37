import Lox.Number.Text

/-!
# Tokens

A token is a kind, the characters it was written with, and the line on which it ends. String and
number tokens carry their value in the kind. `Token.text` is a token as it is listed.
-/

set_option autoImplicit false

namespace Lox

/-- Punctuation and operators. -/
inductive Punct where
  | leftParen
  | rightParen
  | leftBrace
  | rightBrace
  | comma
  | dot
  | minus
  | plus
  | semicolon
  | slash
  | star
  | bang
  | bangEqual
  | equal
  | equalEqual
  | greater
  | greaterEqual
  | less
  | lessEqual
  deriving DecidableEq, Repr

/-- Reserved words. -/
inductive Keyword where
  | andWord
  | classWord
  | elseWord
  | falseWord
  | funWord
  | forWord
  | ifWord
  | nilWord
  | orWord
  | printWord
  | returnWord
  | superWord
  | thisWord
  | trueWord
  | varWord
  | whileWord
  deriving DecidableEq, Repr

/-- What a token is. -/
inductive TokenKind where
  | punct (p : Punct)
  | keyword (k : Keyword)
  | identifier
  /-- A string literal with the characters between its quotes. -/
  | string (contents : String)
  /-- A number literal with its value. -/
  | number (value : Float)
  /-- The end of the source. -/
  | eof
  deriving DecidableEq, Repr

/-- A token: its kind, its spelling and the line on which it ends. -/
structure Token where
  kind : TokenKind
  lexeme : String
  line : Nat
  deriving DecidableEq, Repr

/-! ## Spellings -/

/-- How a punctuation mark is written. -/
def Punct.spelling : Punct → String
  | .leftParen => "("
  | .rightParen => ")"
  | .leftBrace => "\x7b"
  | .rightBrace => "\x7d"
  | .comma => ","
  | .dot => "."
  | .minus => "-"
  | .plus => "+"
  | .semicolon => ";"
  | .slash => "/"
  | .star => "*"
  | .bang => "!"
  | .bangEqual => "!="
  | .equal => "="
  | .equalEqual => "=="
  | .greater => ">"
  | .greaterEqual => ">="
  | .less => "<"
  | .lessEqual => "<="

/-- How a reserved word is written. -/
def Keyword.spelling : Keyword → String
  | .andWord => "and"
  | .classWord => "class"
  | .elseWord => "else"
  | .falseWord => "false"
  | .funWord => "fun"
  | .forWord => "for"
  | .ifWord => "if"
  | .nilWord => "nil"
  | .orWord => "or"
  | .printWord => "print"
  | .returnWord => "return"
  | .superWord => "super"
  | .thisWord => "this"
  | .trueWord => "true"
  | .varWord => "var"
  | .whileWord => "while"

/-- Every punctuation mark. -/
def Punct.all : List Punct :=
  [.leftParen, .rightParen, .leftBrace, .rightBrace, .comma, .dot, .minus, .plus, .semicolon,
    .slash, .star, .bang, .bangEqual, .equal, .equalEqual, .greater, .greaterEqual, .less,
    .lessEqual]

/-- Every reserved word. -/
def Keyword.all : List Keyword :=
  [.andWord, .classWord, .elseWord, .falseWord, .funWord, .forWord, .ifWord, .nilWord, .orWord,
    .printWord, .returnWord, .superWord, .thisWord, .trueWord, .varWord, .whileWord]

/-- The reserved word with this spelling. -/
def Keyword.ofSpelling? (s : String) : Option Keyword :=
  Keyword.all.find? fun k => k.spelling == s

/-! ## Listing -/

/-- The name under which a punctuation mark is listed. -/
def Punct.name : Punct → String
  | .leftParen => "LEFT_PAREN"
  | .rightParen => "RIGHT_PAREN"
  | .leftBrace => "LEFT_BRACE"
  | .rightBrace => "RIGHT_BRACE"
  | .comma => "COMMA"
  | .dot => "DOT"
  | .minus => "MINUS"
  | .plus => "PLUS"
  | .semicolon => "SEMICOLON"
  | .slash => "SLASH"
  | .star => "STAR"
  | .bang => "BANG"
  | .bangEqual => "BANG_EQUAL"
  | .equal => "EQUAL"
  | .equalEqual => "EQUAL_EQUAL"
  | .greater => "GREATER"
  | .greaterEqual => "GREATER_EQUAL"
  | .less => "LESS"
  | .lessEqual => "LESS_EQUAL"

/-- The name under which a reserved word is listed. -/
def Keyword.name : Keyword → String
  | .andWord => "AND"
  | .classWord => "CLASS"
  | .elseWord => "ELSE"
  | .falseWord => "FALSE"
  | .funWord => "FUN"
  | .forWord => "FOR"
  | .ifWord => "IF"
  | .nilWord => "NIL"
  | .orWord => "OR"
  | .printWord => "PRINT"
  | .returnWord => "RETURN"
  | .superWord => "SUPER"
  | .thisWord => "THIS"
  | .trueWord => "TRUE"
  | .varWord => "VAR"
  | .whileWord => "WHILE"

namespace TokenKind

/-- The name under which a kind is listed. -/
def name : TokenKind → String
  | .punct p => p.name
  | .keyword k => k.name
  | .identifier => "IDENTIFIER"
  | .string _ => "STRING"
  | .number _ => "NUMBER"
  | .eof => "EOF"

/-- The value with which a kind is listed, `null` for kinds without one. -/
def literal : TokenKind → String
  | .string contents => contents
  | .number value => Number.literal value
  | _ => "null"

/-- The kinds that carry no value. -/
def plain : List TokenKind :=
  Punct.all.map .punct ++ Keyword.all.map .keyword ++ [.identifier, .eof]

/-- The kind without a value that is listed under this name. -/
def ofName? (s : String) : Option TokenKind :=
  plain.find? fun k => k.name == s

end TokenKind

/-- A token as it is listed: name, spelling and value. -/
def Token.text (t : Token) : String :=
  t.kind.name ++ " " ++ t.lexeme ++ " " ++ t.kind.literal

end Lox
