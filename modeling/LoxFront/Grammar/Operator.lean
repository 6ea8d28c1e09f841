namespace LoxFront

inductive Operator where
  | leftParen
  | rightParen
  | leftBrace
  | rightBrace
  | comma
  | dot
  | minus
  | plus
  | semicolon
  | star
  | slash
  | bang
  | bangEqual
  | equal
  | equalEqual
  | less
  | lessEqual
  | greater
  | greaterEqual
deriving DecidableEq

namespace Operator

def all : List Operator :=
  [leftParen, rightParen, leftBrace, rightBrace, comma, dot, minus, plus, semicolon, star, slash,
    bang, bangEqual, equal, equalEqual, less, lessEqual, greater, greaterEqual]

def spelling : Operator → String
  | leftParen => "("
  | rightParen => ")"
  | leftBrace => "\x7b"
  | rightBrace => "\x7d"
  | comma => ","
  | dot => "."
  | minus => "-"
  | plus => "+"
  | semicolon => ";"
  | star => "*"
  | slash => "/"
  | bang => "!"
  | bangEqual => "!="
  | equal => "="
  | equalEqual => "=="
  | less => "<"
  | lessEqual => "<="
  | greater => ">"
  | greaterEqual => ">="

def name : Operator → String
  | leftParen => "LEFT_PAREN"
  | rightParen => "RIGHT_PAREN"
  | leftBrace => "LEFT_BRACE"
  | rightBrace => "RIGHT_BRACE"
  | comma => "COMMA"
  | dot => "DOT"
  | minus => "MINUS"
  | plus => "PLUS"
  | semicolon => "SEMICOLON"
  | star => "STAR"
  | slash => "SLASH"
  | bang => "BANG"
  | bangEqual => "BANG_EQUAL"
  | equal => "EQUAL"
  | equalEqual => "EQUAL_EQUAL"
  | less => "LESS"
  | lessEqual => "LESS_EQUAL"
  | greater => "GREATER"
  | greaterEqual => "GREATER_EQUAL"

def index : Operator → Nat
  | leftParen => 0
  | rightParen => 1
  | leftBrace => 2
  | rightBrace => 3
  | comma => 4
  | dot => 5
  | minus => 6
  | plus => 7
  | semicolon => 8
  | star => 9
  | slash => 10
  | bang => 11
  | bangEqual => 12
  | equal => 13
  | equalEqual => 14
  | less => 15
  | lessEqual => 16
  | greater => 17
  | greaterEqual => 18

/-- The operator that a byte spells whatever follows it. A slash is not among them: it may open a
comment. -/
def single? (b : UInt8) : Option Operator :=
  match b with
  | 40 => some leftParen
  | 41 => some rightParen
  | 123 => some leftBrace
  | 125 => some rightBrace
  | 44 => some comma
  | 46 => some dot
  | 45 => some minus
  | 43 => some plus
  | 59 => some semicolon
  | 42 => some star
  | _ => none

/-- The two operators that a byte spells, one without and one with an equals sign behind it. -/
def paired? (b : UInt8) : Option (Operator × Operator) :=
  match b with
  | 33 => some (bang, bangEqual)
  | 61 => some (equal, equalEqual)
  | 60 => some (less, lessEqual)
  | 62 => some (greater, greaterEqual)
  | _ => none

end Operator

end LoxFront
