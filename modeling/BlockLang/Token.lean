import BlockLang.Place

/-! The words of the language. Keywords are read without regard to case; a number
keeps its spelling. -/

namespace BlockLang

inductive Keyword where
  | procedure | begin_ | end_ | const | var | call
  | if_ | then_ | else_ | while_ | do_ | return_ | mod
  deriving Repr, DecidableEq, Inhabited

namespace Keyword

def all : List Keyword :=
  [procedure, begin_, end_, const, var, call, if_, then_, else_, while_, do_, return_, mod]

def spelling : Keyword → String
  | procedure => "PROCEDURE"
  | begin_ => "BEGIN"
  | end_ => "END"
  | const => "CONST"
  | var => "VAR"
  | call => "CALL"
  | if_ => "IF"
  | then_ => "THEN"
  | else_ => "ELSE"
  | while_ => "WHILE"
  | do_ => "DO"
  | return_ => "RETURN"
  | mod => "MOD"

def ofWord? (word : String) : Option Keyword :=
  all.find? fun keyword => keyword.spelling == word.toUpper

end Keyword

/-- Operators and punctuation. -/
inductive Sign where
  | assign | equal | notEqual | less | lessEqual | greater | greaterEqual
  | plus | minus | star | slash
  | leftParen | rightParen | colon | semicolon | comma | dot
  deriving Repr, DecidableEq, Inhabited

def Sign.spelling : Sign → String
  | assign => ":="
  | equal => "="
  | notEqual => "<>"
  | less => "<"
  | lessEqual => "<="
  | greater => ">"
  | greaterEqual => ">="
  | plus => "+"
  | minus => "-"
  | star => "*"
  | slash => "/"
  | leftParen => "("
  | rightParen => ")"
  | colon => ":"
  | semicolon => ";"
  | comma => ","
  | dot => "."

inductive Token where
  | keyword (word : Keyword)
  | sign (mark : Sign)
  | identifier (name : String)
  | number (text : String)
  | string (text : String)
  | eof
  deriving Repr, DecidableEq, Inhabited

/-- How messages speak of a token. -/
def Token.describe : Token → String
  | keyword word => word.spelling
  | sign mark => "'" ++ mark.spelling ++ "'"
  | identifier name => "identifier '" ++ name ++ "'"
  | number text => "number " ++ text
  | string text => "string \"" ++ text ++ "\""
  | eof => "end of input"

/-- A token and where it stands. -/
structure Lexeme where
  token : Token
  span : Span
  deriving Repr, DecidableEq, Inhabited

end BlockLang
