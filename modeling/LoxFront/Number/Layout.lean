import LoxFront.Number.Shortest

namespace LoxFront

structure Layout where
  /-- The least power of ten of a leading digit that is written plainly. -/
  plainFrom : Int
  /-- The power of ten of a leading digit from which on an exponent is written. -/
  plainBelow : Int
  infinity : String
  nan : String

namespace Layout

def plain (digits : List Char) (exponent : Int) : List Char :=
  if 0 ≤ exponent then digits ++ List.replicate exponent.toNat '0' ++ ['.', '0']
  else
    let places := (-exponent).toNat
    if places < digits.length then
      digits.take (digits.length - places) ++ '.' :: digits.drop (digits.length - places)
    else '0' :: '.' :: List.replicate (places - digits.length) '0' ++ digits

/-- One digit before the point, the others behind it, and the power of ten of the first. A point
without digits behind it is left out. -/
def scientific (digits : List Char) (power : Int) : List Char :=
  let mantissa :=
    match digits with
    | [] => []
    | [d] => [d]
    | d :: r => d :: '.' :: r
  mantissa ++ 'e' :: (toString power).toList

def decimal (f : Layout) (d : Decimal) : List Char :=
  let digits := Nat.toDigits 10 d.digits
  let power := d.exponent + digits.length - 1
  if d.digits = 0 ∨ (f.plainFrom ≤ power ∧ power < f.plainBelow) then plain digits d.exponent
  else scientific digits power

/-- A value as text. The sign of zero is kept, that of a value that is no number is not. -/
def write (f : Layout) (x : Binary64) : String :=
  if x.isNaN then f.nan
  else
    let magnitude :=
      if x.isInfinite then f.infinity else String.ofList (f.decimal (Binary64.shortest x.rank))
    if x.isNegative then "-" ++ magnitude else magnitude

end Layout

end LoxFront
