/-! Double-precision numbers. The bits below the sign number the non-negative values in increasing
order, and every finite value is a whole multiple of 2^-1074. -/
namespace LoxFront

structure Binary64 where
  bits : UInt64
deriving DecidableEq

namespace Binary64

abbrev binade : Nat := 0x10000000000000

abbrev infinityRank : Nat := 2047 * binade

abbrev signBit : Nat := 0x8000000000000000

def isNegative (x : Binary64) : Bool :=
  signBit ≤ x.bits.toNat

/-- The place of the magnitude among all magnitudes: 0 for zero, 1 for the least value above it, and
so on. -/
def rank (x : Binary64) : Nat :=
  x.bits.toNat % signBit

def isNaN (x : Binary64) : Bool :=
  infinityRank < x.rank

def isInfinite (x : Binary64) : Bool :=
  x.rank == infinityRank

def ofRank (negative : Bool) (rank : Nat) : Binary64 :=
  ⟨UInt64.ofNat (if negative then signBit + rank else rank)⟩

def nan : Binary64 :=
  ofRank false (infinityRank + binade / 2)

/-- The whole number that, shifted by the scale, gives a finite magnitude in units of 2^-1074. -/
def significand (rank : Nat) : Nat :=
  if rank < binade then rank else binade + rank % binade

def scale (rank : Nat) : Nat :=
  rank / binade - 1

/-- A finite magnitude in units of 2^-1074. -/
def units (rank : Nat) : Nat :=
  significand rank * Nat.pow 2 (scale rank)

/-- A quotient rounded to the nearest whole number; halves go to the even one. -/
def roundDiv (num den : Nat) : Nat :=
  let quotient := num / den
  let remainder := num % den
  if 2 * remainder < den ∨ (2 * remainder = den ∧ quotient % 2 = 0) then quotient
  else quotient + 1

/-- The rank of the magnitude nearest to a quotient; halves go to the even rank, and what rounds
above every finite magnitude is infinite. -/
def nearestRank (num den : Nat) : Nat :=
  let scaled := num * Nat.pow 2 1074
  -- The least shift that leaves at most 53 binary digits before the point.
  let shift := (scaled / den).log2 - 52
  -- A significand rounded up to 2^53 carries into the next binade.
  min (shift * binade + roundDiv scaled (den * Nat.pow 2 shift)) infinityRank

end Binary64

end LoxFront
