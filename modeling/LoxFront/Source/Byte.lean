/-! All bytes and classes named here are ASCII, so none occurs inside a longer UTF-8 character. -/
namespace LoxFront.Byte

abbrev endMark : UInt8 := 0

abbrev newline : UInt8 := 10
abbrev quote : UInt8 := 34
abbrev star : UInt8 := 42
abbrev dot : UInt8 := 46
abbrev slash : UInt8 := 47
abbrev equals : UInt8 := 61

/-- Space, tab and carriage return. A newline is not blank: it is a lexeme of its own. -/
def isBlank (b : UInt8) : Bool :=
  b == 32 || b == 9 || b == 13

def isDigit (b : UInt8) : Bool :=
  48 ≤ b && b ≤ 57

def isLetter (b : UInt8) : Bool :=
  (97 ≤ b && b ≤ 122) || (65 ≤ b && b ≤ 90) || b == 95

def isWord (b : UInt8) : Bool :=
  isLetter b || isDigit b

/-- The length of the UTF-8 character that starts with this byte, read off the byte alone. A byte
that starts no longer character counts as one. -/
def width (b : UInt8) : Nat :=
  if 0xC0 ≤ b ∧ b ≤ 0xDF then 2
  else if 0xE0 ≤ b ∧ b ≤ 0xEF then 3
  else if 0xF0 ≤ b ∧ b ≤ 0xF7 then 4
  else 1

theorem width_pos (b : UInt8) : 0 < width b := by
  unfold width
  repeat' split
  all_goals omega

end LoxFront.Byte
