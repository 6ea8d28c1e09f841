import LoxFront.Text.Blank
import LoxFront.Text.Upper

/-! The codes under which faults are documented. -/
namespace LoxFront

inductive Code where
  | e0001
  | e0002
  | e0003
  | e0004
deriving DecidableEq

namespace Code

def all : List Code :=
  [e0001, e0002, e0003, e0004]

def name : Code → String
  | e0001 => "E0001"
  | e0002 => "E0002"
  | e0003 => "E0003"
  | e0004 => "E0004"

def description : Code → String
  | e0001 => "unterminated string literal"
  | e0002 => "unexpected character"
  | e0003 => "unterminated block comment"
  | e0004 => "malformed block comment close"

/-- The code that a text names. Blanks at both ends do not count, and the rest is compared in upper
case. -/
def ofText? (text : String) : Option Code :=
  let word := String.ofList (Text.toUpper (Text.trim text.toList))
  all.find? (·.name == word)

end Code

end LoxFront
