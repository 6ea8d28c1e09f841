import LoxFront.Number.Reading
import LoxFront.Proofs.Rounding
import Mathlib.Algebra.Order.Group.Abs
import Mathlib.Order.WithBot
import Mathlib.Tactic.FieldSimp

/-! A finite value of a given rank has the magnitude of that rank, so a rank nearest to a rational
gives a value nearest to it. -/
namespace LoxFront

def Decimal.value (d : Decimal) : ℚ :=
  d.digits * 10 ^ d.exponent

theorem Decimal.value_nonneg (d : Decimal) : 0 ≤ d.value :=
  mul_nonneg (Nat.cast_nonneg _) (zpow_nonneg (by norm_num) _)

namespace Binary64

def exponent (x : Binary64) : Nat :=
  x.bits.toNat / 2 ^ 52 % 2 ^ 11

def fraction (x : Binary64) : Nat :=
  x.bits.toNat % 2 ^ 52

def isFinite (x : Binary64) : Bool :=
  x.exponent != 2047

/-- A finite value without its sign. The least exponent is that of zero and of the subnormal values.
-/
def absValue (x : Binary64) : ℚ :=
  if x.exponent = 0 then x.fraction / 2 ^ 52 * 2 ^ (-1022 : ℤ)
  else (1 + x.fraction / 2 ^ 52) * 2 ^ (x.exponent - 1023 : ℤ)

def value (x : Binary64) : ℚ :=
  if x.isNegative then -x.absValue else x.absValue

theorem exponent_eq (x : Binary64) : x.exponent = x.rank / binade := by
  unfold exponent rank
  rw [binade_eq, show signBit = 9223372036854775808 from rfl]
  omega

theorem fraction_eq (x : Binary64) : x.fraction = x.rank % binade := by
  unfold fraction rank
  rw [binade_eq, show signBit = 9223372036854775808 from rfl]
  omega

theorem isFinite_iff (x : Binary64) : x.isFinite = true ↔ x.rank < infinityRank := by
  have hrank : x.rank < signBit := Nat.mod_lt _ (by decide)
  rw [isFinite, bne_iff_ne, exponent_eq]
  rw [show signBit = 2048 * binade from rfl] at hrank
  rw [show infinityRank = 2047 * binade from rfl]
  rw [binade_eq] at *
  omega

theorem pow_mul_one_div_pow_add (a b n : Nat) :
    (2 : ℚ) ^ n * (1 / 2 ^ (a + b)) = 2 ^ ((n : ℤ) - b) / 2 ^ a := by
  rw [zpow_sub₀ two_ne_zero, zpow_natCast, zpow_natCast, pow_add]
  field_simp

theorem pow_mul_unit_eq (n : Nat) : (2 : ℚ) ^ n * unit = 2 ^ ((n : ℤ) - 1022) / 2 ^ 52 :=
  pow_mul_one_div_pow_add 52 1022 n

theorem absValue_eq (x : Binary64) : x.absValue = magnitude x.rank := by
  have hdiv := Nat.div_add_mod x.rank binade
  have hmod : x.rank % binade < binade := Nat.mod_lt _ (by decide)
  unfold absValue magnitude
  rw [exponent_eq, fraction_eq]
  generalize x.rank / binade = e at *
  generalize x.rank % binade = f at *
  rw [← hdiv]
  rcases Nat.eq_zero_or_pos e with rfl | he
  · -- With the least exponent the fraction counts the units itself.
    have hunits : units (0 * binade + f) = f * Nat.pow 2 0 :=
      units_add (Or.inl rfl) (by omega)
    have hshift : ((0 : Nat) : ℤ) - 1022 = -1022 := rfl
    rw [if_pos rfl, Nat.mul_comm binade, hunits, Nat.cast_mul, cast_pow_two, mul_assoc,
      pow_mul_unit_eq, hshift, div_mul_eq_mul_div, mul_div_assoc]
  · -- Otherwise there is a digit in front of the fraction, and it counts steps of the binade.
    obtain ⟨n, rfl⟩ : ∃ n, e = n + 1 := ⟨e - 1, by omega⟩
    have hunits : units (n * binade + (binade + f)) = (binade + f) * Nat.pow 2 n :=
      units_add (Or.inr (by omega)) (by omega)
    have hrank : binade * (n + 1) + f = n * binade + (binade + f) := by ring
    have hbinade : ((binade : Nat) : ℚ) = 2 ^ 52 := by norm_num
    have hshift : ((n + 1 : Nat) : ℤ) - 1023 = (n : ℤ) - 1022 := by omega
    rw [if_neg (by omega), hrank, hunits, hshift, Nat.cast_mul, cast_pow_two, mul_assoc,
      pow_mul_unit_eq, Nat.cast_add, hbinade]
    generalize (2 : ℚ) ^ ((n : ℤ) - 1022) = power
    field_simp

theorem abs_value (x : Binary64) : |x.value| = magnitude x.rank := by
  have habs : |x.absValue| = magnitude x.rank := by
    rw [absValue_eq]
    exact abs_of_nonneg (mul_nonneg (Nat.cast_nonneg _) unit_pos.le)
  unfold value
  split
  · rw [abs_neg, habs]
  · exact habs

section
variable {r : Nat} (h : r ≤ infinityRank)
include h

theorem toNat_bits_ofRank : (ofRank false r).bits.toNat = r :=
  UInt64.toNat_ofNat_of_lt' (Nat.lt_of_le_of_lt h (by decide))

theorem rank_ofRank : (ofRank false r).rank = r := by
  rw [rank, toNat_bits_ofRank h]
  exact Nat.mod_eq_of_lt (Nat.lt_of_le_of_lt h (by decide))

theorem isNegative_ofRank : (ofRank false r).isNegative = false := by
  rw [isNegative, toNat_bits_ofRank h]
  exact decide_eq_false (Nat.not_le_of_lt (Nat.lt_of_le_of_lt h (by decide)))

theorem value_ofRank : (ofRank false r).value = magnitude r := by
  rw [value, isNegative_ofRank h, absValue_eq, rank_ofRank h]
  rfl

theorem fraction_ofRank : (ofRank false r).fraction % 2 = r % 2 := by
  rw [fraction, toNat_bits_ofRank h]
  omega

theorem ofRank_eq_iff {s : Nat} (hs : s ≤ infinityRank) :
    ofRank false r = ofRank false s ↔ r = s := by
  constructor
  · intro heq
    have hbits := congrArg (fun x => x.bits.toNat) heq
    rwa [toNat_bits_ofRank h, toNat_bits_ofRank hs] at hbits
  · exact congrArg (ofRank false)

end

theorem abs_sub_le_of_two_mul_le {q m n : ℚ} (h : m ≤ n) (hq : 2 * q ≤ m + n) :
    |q - m| ≤ |q - n| := by
  have hn := neg_le_abs (q - n)
  apply abs_le'.mpr
  constructor <;> linarith

theorem abs_sub_le_of_le_two_mul {q m n : ℚ} (h : n ≤ m) (hq : m + n ≤ 2 * q) :
    |q - m| ≤ |q - n| := by
  have hn := le_abs_self (q - n)
  apply abs_le'.mpr
  constructor <;> linarith

theorem two_mul_eq_of_abs_sub_eq {q m n : ℚ} (h : m ≠ n) (heq : |q - m| = |q - n|) :
    2 * q = m + n := by
  rcases abs_eq_abs.mp heq with hsame | hopposite
  · exact absurd (sub_right_injective hsame) h
  · linarith

section
variable {q : ℚ} {r : Nat} (h : RoundsTo q r)
include h

theorem RoundsTo.le_of_le {q' : ℚ} {r' : Nat} (h' : RoundsTo q' r') (hq : q ≤ q') : r ≤ r' := by
  by_contra hlt
  obtain ⟨p, rfl⟩ : ∃ p, r = p + 1 := ⟨r - 1, by omega⟩
  have hfinite : r' < infinityRank := Nat.lt_of_lt_of_le (Nat.lt_of_not_le hlt) h.le_infinity
  have hmid : midpoint r' ≤ midpoint p := midpoint_strictMono.monotone (by omega)
  have hlow := h.above p rfl
  have hhigh := h'.below hfinite
  -- Both rationals are on the one point between two ranks, and both ranks are even.
  have hsame : r' = p := midpoint_strictMono.injective (le_antisymm hmid (by linarith))
  have heven := h.even_of_above p rfl (by linarith)
  have heven' := h'.even_of_below hfinite (by rw [hsame] at *; linarith)
  omega

theorem RoundsTo.eq_zero_iff : r = 0 ↔ q ≤ midpoint 0 := by
  constructor
  · rintro rfl
    exact h.below (by decide)
  · intro hq
    by_contra hr
    obtain ⟨p, rfl⟩ : ∃ p, r = p + 1 := ⟨r - 1, by omega⟩
    have hmid : midpoint 0 ≤ midpoint p := midpoint_strictMono.monotone (Nat.zero_le p)
    have hlow := h.above p rfl
    have hzero : p = 0 := midpoint_strictMono.injective (by linarith)
    have heven := h.even_of_above p rfl (by rw [hzero] at *; linarith)
    omega

theorem RoundsTo.eq_infinity_iff : r = infinityRank ↔ midpoint (infinityRank - 1) ≤ q := by
  have hle := h.le_infinity
  constructor
  · intro hr
    exact h.above _ hr
  · intro hq
    by_contra hr
    have hlt : r < infinityRank := by omega
    have hmid : midpoint r ≤ midpoint (infinityRank - 1) := midpoint_strictMono.monotone (by omega)
    have hhigh := h.below hlt
    have hlast : r = infinityRank - 1 := midpoint_strictMono.injective (by linarith)
    have heven := h.even_of_below hlt (by rw [hlast] at *; linarith)
    have hodd : (infinityRank - 1) % 2 = 1 := rfl
    rw [hlast, hodd] at heven
    exact absurd heven one_ne_zero

theorem RoundsTo.two_mul_le (hr : r < infinityRank) {s : Nat} (hs : r < s) :
    2 * q ≤ magnitude r + magnitude s ∧ (2 * q = magnitude r + magnitude s → r % 2 = 0) := by
  have hnext : magnitude (r + 1) ≤ magnitude s := magnitude_strictMono.monotone hs
  have hmid : 2 * midpoint r = magnitude r + magnitude (r + 1) := mul_div_cancel₀ _ two_ne_zero
  have hq := h.below hr
  exact ⟨by linarith, fun heq => h.even_of_below hr (by linarith)⟩

theorem RoundsTo.le_two_mul {s : Nat} (hs : s < r) :
    magnitude r + magnitude s ≤ 2 * q ∧ (2 * q = magnitude r + magnitude s → r % 2 = 0) := by
  obtain ⟨p, rfl⟩ : ∃ p, r = p + 1 := ⟨r - 1, by omega⟩
  have hlast : magnitude s ≤ magnitude p := magnitude_strictMono.monotone (by omega)
  have hmid : 2 * midpoint p = magnitude p + magnitude (p + 1) := mul_div_cancel₀ _ two_ne_zero
  have hq := h.above p rfl
  exact ⟨by linarith, fun heq => h.even_of_above p rfl (by linarith)⟩

theorem RoundsTo.abs_sub_le (hr : r < infinityRank) (s : Nat) :
    |q - magnitude r| ≤ |q - magnitude s| := by
  rcases Nat.lt_trichotomy r s with hlt | rfl | hgt
  · exact abs_sub_le_of_two_mul_le (magnitude_strictMono hlt).le (h.two_mul_le hr hlt).1
  · exact le_refl _
  · exact abs_sub_le_of_le_two_mul (magnitude_strictMono hgt).le (h.le_two_mul hgt).1

theorem RoundsTo.even_of_tie (hr : r < infinityRank) {s : Nat} (hs : r ≠ s)
    (heq : |q - magnitude r| = |q - magnitude s|) : r % 2 = 0 := by
  have hmiddle := two_mul_eq_of_abs_sub_eq (magnitude_strictMono.injective.ne hs) heq
  rcases Nat.lt_or_gt_of_ne hs with hlt | hgt
  · exact (h.two_mul_le hr hlt).2 hmiddle
  · exact (h.le_two_mul hgt).2 hmiddle

end

def infinity : Binary64 :=
  ⟨0x7FF0000000000000⟩

/-- The value that IEEE 754 gives for a rational that is not negative, if ties go to even. From
half-way between the greatest finite value and 2^1024 on it is infinite. -/
structure Nearest (q : ℚ) (x : Binary64) : Prop where
  isNaN : x.isNaN = false
  isNegative : x.isNegative = false
  eq_infinity_iff : x = infinity ↔ 2 ^ 1024 - 2 ^ 970 ≤ q
  eq_zero_iff : x = ⟨0⟩ ↔ q ≤ 1 / 2 ^ 1075
  isFinite_iff : x.isFinite = true ↔ x ≠ infinity
  abs_sub_le : x.isFinite = true → ∀ y : Binary64, y.isFinite = true → |q - x.value| ≤ |q - y.value|
  even_of_tie : x.isFinite = true → ∀ y : Binary64, y.isFinite = true → y.value ≠ x.value →
    |q - x.value| = |q - y.value| → x.fraction % 2 = 0

theorem midpoint_zero : midpoint 0 = 1 / 2 ^ 1075 := by
  have htwice : 2 * midpoint 0 = 1 * unit := by
    rw [two_mul_midpoint, show twiceHalfway 0 = 1 from rfl, Nat.cast_one]
  have hpow : (2 : ℚ) ^ 1075 = 2 ^ 1074 * 2 := pow_succ 2 1074
  calc
    midpoint 0 = 1 / 2 ^ 1074 / 2 := by
      rw [← unit]
      linarith
    _ = 1 / 2 ^ 1075 := by rw [hpow, div_div]

theorem pow_add_mul_unit (n : Nat) : (2 : ℚ) ^ (n + 1074) * unit = 2 ^ n := by
  unfold unit
  generalize 1074 = m
  rw [pow_add, mul_assoc, mul_one_div_cancel (pow_ne_zero m two_ne_zero), mul_one]

/-- Far enough up, the magnitudes of a binade and its two ends are multiples of a whole power of two.
-/
theorem magnitude_add (n : Nat) {t : Nat} (ht : binade ≤ t) (ht' : t ≤ 2 * binade) :
    magnitude ((n + 1074) * binade + t) = t * 2 ^ n := by
  rw [magnitude, units_add (Or.inr ht) ht', Nat.cast_mul, cast_pow_two, mul_assoc,
    pow_add_mul_unit]

theorem midpoint_last : midpoint (infinityRank - 1) = 2 ^ 1024 - 2 ^ 970 := by
  have hrank : infinityRank - 1 = (971 + 1074) * binade + (2 * binade - 1) := by decide
  have hnext : infinityRank - 1 + 1 = (971 + 1074) * binade + 2 * binade := by decide
  have hlow := magnitude_add 971 (show binade ≤ 2 * binade - 1 by decide) (by decide)
  have hhigh := magnitude_add 971 (show binade ≤ 2 * binade by decide) (by decide)
  have hbinade : ((2 * binade : Nat) : ℚ) = 2 ^ 53 := by norm_num
  have hless : ((2 * binade - 1 : Nat) : ℚ) = 2 ^ 53 - 1 := by norm_num
  have hstep : (2 : ℚ) ^ 971 = 2 ^ 970 * 2 := pow_succ 2 970
  have hend : (2 : ℚ) ^ 1024 = 2 ^ 54 * 2 ^ 970 := pow_add 2 54 970
  rw [midpoint, hnext, hrank, hlow, hhigh, hbinade, hless, hstep, hend]
  generalize (2 : ℚ) ^ 970 = power
  ring

theorem abs_sub_magnitude_le {q : ℚ} (hq : 0 ≤ q) (y : Binary64) :
    |q - magnitude y.rank| ≤ |q - y.value| := by
  calc
    |q - magnitude y.rank| = |(|q| - |y.value|)| := by rw [abs_of_nonneg hq, abs_value]
    _ ≤ |q - y.value| := abs_abs_sub_abs_le q y.value

theorem value_eq_neg {y : Binary64} (h : y.value ≠ magnitude y.rank) :
    y.value = -magnitude y.rank := by
  rw [value, absValue_eq] at h ⊢
  by_cases hneg : y.isNegative = true
  · rw [if_pos hneg]
  · rw [if_neg hneg] at h
    exact absurd rfl h

theorem RoundsTo.nearest {q : ℚ} (hq : 0 ≤ q) {r : Nat} (h : RoundsTo q r) :
    Nearest q (ofRank false r) := by
  have hle := h.le_infinity
  have hfinite : (ofRank false r).isFinite = true ↔ r < infinityRank := by
    rw [isFinite_iff, rank_ofRank hle]
  have hinfinity : ofRank false r = infinity ↔ r = infinityRank :=
    ofRank_eq_iff hle (Nat.le_refl _)
  refine ⟨?_, isNegative_ofRank hle, ?_, ?_, ?_, ?_, ?_⟩
  · rw [isNaN, rank_ofRank hle]
    exact decide_eq_false (Nat.not_lt_of_le hle)
  · rw [hinfinity, h.eq_infinity_iff, midpoint_last]
  · rw [← midpoint_zero, ← h.eq_zero_iff]
    exact ofRank_eq_iff hle (Nat.zero_le _)
  · rw [hfinite, ne_eq, hinfinity]
    omega
  · intro hx y _
    rw [value_ofRank hle]
    exact (h.abs_sub_le (hfinite.mp hx) y.rank).trans (abs_sub_magnitude_le hq y)
  · intro hx y _ hne heq
    rw [value_ofRank hle] at hne heq
    rw [fraction_ofRank hle]
    by_cases hrank : r = y.rank
    · -- The other value is the negative of this one, so the rational is zero.
      rw [hrank] at hne heq
      have hneg := two_mul_eq_of_abs_sub_eq hne.symm heq
      rw [value_eq_neg hne, add_neg_cancel] at hneg
      have hmid : 0 ≤ midpoint 0 := by
        rw [midpoint_zero]
        exact (one_div_pos.mpr (pow_pos two_pos 1075)).le
      rw [h.eq_zero_iff.mpr (by linarith)]
    · -- The magnitude of the other value is as near, and of another rank.
      have hother := abs_sub_magnitude_le hq y
      have hhere := h.abs_sub_le (hfinite.mp hx) y.rank
      exact h.even_of_tie (hfinite.mp hx) hrank (le_antisymm hhere (heq ▸ hother))

def extended (x : Binary64) : WithTop ℚ :=
  if x.isInfinite then ⊤ else x.value

theorem extended_ofRank {r : Nat} (h : r ≤ infinityRank) :
    (ofRank false r).extended = if r = infinityRank then ⊤ else (magnitude r : WithTop ℚ) := by
  rw [extended, isInfinite, rank_ofRank h, value_ofRank h]
  rcases Nat.eq_or_lt_of_le h with heq | hlt
  · rw [if_pos heq, if_pos (beq_iff_eq.mpr heq)]
  · rw [if_neg (Nat.ne_of_lt hlt), if_neg (by rw [beq_iff_eq]; exact Nat.ne_of_lt hlt)]

theorem extended_le_extended {r s : Nat} (h : r ≤ s) (hs : s ≤ infinityRank) :
    (ofRank false r).extended ≤ (ofRank false s).extended := by
  rw [extended_ofRank (Nat.le_trans h hs), extended_ofRank hs]
  rcases Nat.eq_or_lt_of_le hs with heq | hlt
  · rw [if_pos heq]
    exact le_top
  · rw [if_neg (Nat.ne_of_lt hlt), if_neg (Nat.ne_of_lt (Nat.lt_of_le_of_lt h hlt))]
    exact WithTop.coe_le_coe.mpr (magnitude_strictMono.monotone h)

theorem roundsTo_rankOfDecimal (d : Decimal) : RoundsTo d.value (rankOfDecimal d) := by
  unfold rankOfDecimal
  split
  · next he =>
    have hvalue : d.value = (d.digits * Nat.pow 10 d.exponent.toNat : Nat) / (1 : Nat) := by
      conv_lhs => rw [Decimal.value, ← Int.toNat_of_nonneg he, zpow_natCast]
      rw [Nat.cast_one, div_one, Nat.pow_eq, Nat.cast_mul, Nat.cast_pow, Nat.cast_ofNat]
    rw [hvalue]
    exact roundsTo_nearestRank one_pos _
  · next he =>
    have hneg : d.exponent = -((-d.exponent).toNat : ℤ) := by omega
    have hvalue : d.value = d.digits / (Nat.pow 10 (-d.exponent).toNat : Nat) := by
      conv_lhs => rw [Decimal.value, hneg, zpow_neg, zpow_natCast]
      rw [Nat.pow_eq, Nat.cast_pow, Nat.cast_ofNat, ← div_eq_mul_inv]
    rw [hvalue]
    exact roundsTo_nearestRank (Nat.pow_pos (by omega)) _

end Binary64

end LoxFront
