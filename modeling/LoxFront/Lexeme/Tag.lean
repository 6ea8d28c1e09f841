import LoxFront.Grammar.Operator

/-! Every byte of a source belongs to a lexeme, so blanks, comments and faulty text have tags too. -/
namespace LoxFront

inductive Tag where
  /-- A letter or underscore, then letters, digits and underscores. Keywords are among them. -/
  | ident
  | number
  | string
  | operator (o : Operator)
  | whitespace
  | newline
  | lineComment
  | blockComment
  /-- One character that starts no other lexeme. -/
  | invalidChar
  | unterminatedString
  | unterminatedBlockComment
  /-- A block comment that is not closed, and whose last byte is a star. -/
  | malformedBlockComment
  | eof
deriving DecidableEq

namespace Tag

def code : Tag → Nat
  | ident => 0
  | number => 1
  | string => 2
  | operator o => 32 + o.index
  | whitespace => 112
  | newline => 113
  | lineComment => 114
  | blockComment => 115
  | invalidChar => 240
  | unterminatedString => 241
  | unterminatedBlockComment => 242
  | malformedBlockComment => 243
  | eof => 255

def isTrivia (t : Tag) : Bool :=
  112 ≤ t.code && t.code ≤ 127

def isFault (t : Tag) : Bool :=
  240 ≤ t.code && t.code ≤ 254

end Tag

end LoxFront
