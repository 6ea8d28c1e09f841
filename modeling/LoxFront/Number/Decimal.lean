namespace LoxFront

structure Decimal where
  digits : Nat
  exponent : Int
deriving DecidableEq

namespace Decimal

def readExponent? (cs : List Char) : Option Int :=
  let (negative, digits) :=
    match cs with
    | '-' :: r => (true, r)
    | '+' :: r => (false, r)
    | r => (false, r)
  if digits.isEmpty || !digits.all Char.isDigit then none
  else if negative then some (-(Nat.ofDigitChars 10 digits 0 : Int))
  else some (Nat.ofDigitChars 10 digits 0)

def readTail? (cs : List Char) : Option Int :=
  match cs with
  | [] => some 0
  | c :: r => if c = 'e' ∨ c = 'E' then readExponent? r else none

/-- A run of digits, a fraction behind a dot, and an exponent. The fraction and the exponent may be
absent, and one of the two runs of digits may be empty. -/
def read? (cs : List Char) : Option Decimal :=
  let whole := cs.takeWhile Char.isDigit
  let (fraction, tail) :=
    match cs.dropWhile Char.isDigit with
    | '.' :: r => (r.takeWhile Char.isDigit, r.dropWhile Char.isDigit)
    | r => ([], r)
  if whole.isEmpty && fraction.isEmpty then none
  else
    (readTail? tail).map fun exponent =>
      ⟨Nat.ofDigitChars 10 (whole ++ fraction) 0, exponent - fraction.length⟩

end Decimal

end LoxFront
