import LoxFront.Grammar.Keyword
import LoxFront.Grammar.Operator
import LoxFront.Number.Layout

namespace LoxFront

inductive Kind where
  | operator (o : Operator)
  | string
  | number
  | identifier
  | keyword (k : Keyword)
  | eof
deriving DecidableEq

namespace Kind

def all : List Kind :=
  Operator.all.map operator ++ [string, number, identifier] ++ Keyword.all.map keyword ++ [eof]

def name : Kind → String
  | operator o => o.name
  | string => "STRING"
  | number => "NUMBER"
  | identifier => "IDENTIFIER"
  | keyword k => k.name
  | eof => "EOF"

end Kind

inductive Literal where
  | text (value : String)
  | number (value : Binary64)
deriving DecidableEq

namespace Literal

/-- Numbers are plain from 0.0001 up to, but not including, 10^16. -/
def layout : Layout :=
  { plainFrom := -4, plainBelow := 16, infinity := "inf", nan := "NaN" }

def render : Literal → String
  | text value => value
  | number value => layout.write value

end Literal

structure Token where
  kind : Kind
  lexeme : String
  literal : Option Literal
  line : UInt32
deriving DecidableEq

namespace Token

def eof (line : UInt32) : Token :=
  ⟨.eof, "", none, line⟩

/-- Kind, lexeme and value; the word `null` stands for no value. -/
def render (t : Token) : String :=
  t.kind.name ++ " " ++ t.lexeme ++ " " ++ (t.literal.map Literal.render).getD "null"

def dumpLine (t : Token) : String :=
  let value :=
    match t.literal with
    | some literal => " " ++ literal.render
    | none => ""
  t.kind.name ++ " '" ++ t.lexeme ++ "'" ++ value ++ " @ " ++ toString t.line.toNat

end Token

end LoxFront
