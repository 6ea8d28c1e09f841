import LoxFront.Number.Binary64
import LoxFront.Number.Decimal

namespace LoxFront.Binary64

def rankOfDecimal (d : Decimal) : Nat :=
  if 0 ≤ d.exponent then nearestRank (d.digits * Nat.pow 10 d.exponent.toNat) 1
  else nearestRank d.digits (Nat.pow 10 (-d.exponent).toNat)

def readRank? (cs : List Char) : Option Nat :=
  let word := cs.map Char.toLower
  if word = "inf".toList ∨ word = "infinity".toList then some infinityRank
  else if word = "nan".toList then some nan.rank
  else (Decimal.read? cs).map rankOfDecimal

def ofText? (text : String) : Option Binary64 :=
  match text.toList with
  | '-' :: cs => (readRank? cs).map (ofRank true)
  | '+' :: cs => (readRank? cs).map (ofRank false)
  | cs => (readRank? cs).map (ofRank false)

end LoxFront.Binary64
