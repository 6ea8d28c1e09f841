import LoxFront.Number.Binary64
import LoxFront.Number.Decimal

/-! The shortest decimal that reads back as a magnitude. For one digit, two digits and so on, the
two neighbours of the magnitude with that many digits are tried. -/
namespace LoxFront

/-- The decimals that read as one magnitude, in units of ten to the power `-places`. -/
structure Reach where
  low : Nat
  value : Nat
  high : Nat
  closed : Bool
  places : Nat

namespace Reach

/-- The reach of a positive finite magnitude. Its ends lie half-way to the two adjacent magnitudes;
below a power of two the gap is half as wide. A half-way decimal goes to the even rank. -/
def ofRank (rank : Nat) : Reach :=
  -- Counted in quarters of a significand, both half-way points are whole.
  let quarters := 4 * Binary64.significand rank
  let scale := Binary64.scale rank
  let unit := if 1076 ≤ scale then Nat.pow 2 (scale - 1076) else Nat.pow 5 (1076 - scale)
  let narrow := rank % Binary64.binade = 0 ∧ 0 < scale
  { low := (quarters - if narrow then 1 else 2) * unit
    value := quarters * unit
    high := (quarters + 2) * unit
    closed := rank % 2 = 0
    places := 1076 - scale }

def holds (g : Reach) (x : Nat) : Bool :=
  if g.closed then g.low ≤ x && x ≤ g.high else g.low < x && x < g.high

/-- The multiple of a step that is nearest to the magnitude among those next to it that read as it,
counted in steps. Of two equally near ones the greater is taken. -/
def pick? (g : Reach) (step : Nat) : Option Nat :=
  let below := g.value / step
  let above := below + 1
  match g.holds (below * step), g.holds (above * step) with
  | true, true => if g.value - below * step < above * step - g.value then some below else some above
  | true, false => some below
  | false, true => some above
  | false, false => none

/-- Tries the powers of ten from a given one down as steps. At the power 0 the magnitude is a
multiple. -/
def search (g : Reach) : Nat → Decimal
  | 0 => ⟨g.value, -(g.places : Int)⟩
  | power + 1 =>
    match g.pick? (Nat.pow 10 (power + 1)) with
    | some digits => ⟨digits, (power + 1 : Int) - g.places⟩
    | none => g.search power

def decimalLength (n : Nat) : Nat :=
  if n < 10 then 1 else decimalLength (n / 10) + 1

def shortest (g : Reach) : Decimal :=
  g.search (decimalLength g.value)

end Reach

def Binary64.shortest (rank : Nat) : Decimal :=
  if rank = 0 then ⟨0, 0⟩ else (Reach.ofRank rank).shortest

end LoxFront
