import LoxFront.Number.Binary64
import Mathlib.Order.Monotone.Basic
import Mathlib.Tactic.Linarith
import Mathlib.Tactic.Ring

/-! The point half-way between the magnitudes of two adjacent ranks decides between them. This is
first shown of whole numbers of units and then of rationals. -/
namespace LoxFront.Binary64

theorem binade_eq : binade = 4503599627370496 := rfl

/-- The ranks of a binade and of its two ends have magnitudes that are multiples of one power of two.
The two lowest binades share theirs. -/
theorem units_add {s t : Nat} (h : s = 0 ∨ binade ≤ t) (ht : t ≤ 2 * binade) :
    units (s * binade + t) = t * Nat.pow 2 s := by
  have hb := binade_eq
  unfold units significand scale
  rcases Nat.lt_or_ge t binade with hlow | hlow
  · -- Below the first binade a rank counts the units itself.
    have hs : s = 0 := h.resolve_right (by omega)
    subst hs
    have hscale : (0 * binade + t) / binade - 1 = 0 := by
      rw [hb] at *
      omega
    rw [if_pos (by omega), hscale, Nat.zero_mul, Nat.zero_add]
  · rcases Nat.lt_or_ge t (2 * binade) with hhigh | hhigh
    · have hscale : (s * binade + t) / binade - 1 = s := by
        rw [hb] at *
        omega
      have hsig : binade + (s * binade + t) % binade = t := by
        rw [hb] at *
        omega
      rw [if_neg (by rw [hb] at *; omega), hscale, hsig]
    · -- The upper end is the least magnitude of the next binade.
      have htop : t = 2 * binade := Nat.le_antisymm ht hhigh
      have hscale : (s * binade + t) / binade - 1 = s + 1 := by
        rw [hb] at *
        omega
      have hsig : binade + (s * binade + t) % binade = binade := by
        rw [hb] at *
        omega
      have hpow : Nat.pow 2 (s + 1) = Nat.pow 2 s * 2 := rfl
      rw [if_neg (by rw [hb] at *; omega), hscale, hsig, hpow, htop]
      ring

theorem le_units_succ {s t : Nat} (h : s = 0 ∨ binade ≤ t) (ht : t ≤ 2 * binade) :
    (t + 1) * Nat.pow 2 s ≤ units (s * binade + t + 1) := by
  have hb := binade_eq
  rcases Nat.lt_or_ge t (2 * binade) with hhigh | hhigh
  · have hnext := units_add (s := s) (t := t + 1) (by omega) (by omega)
    rw [← Nat.add_assoc] at hnext
    exact Nat.le_of_eq hnext.symm
  · have htop : t = 2 * binade := Nat.le_antisymm ht hhigh
    have hnext := units_add (s := s + 1) (t := binade + 1) (by omega) (by omega)
    have hrank : s * binade + t + 1 = (s + 1) * binade + (binade + 1) := by
      rw [htop]
      ring
    have hpow : Nat.pow 2 (s + 1) = Nat.pow 2 s * 2 := rfl
    have hpos : 0 < Nat.pow 2 s := Nat.two_pow_pos s
    rw [hrank, hnext, hpow, htop]
    nlinarith

theorem exists_eq_binade_add (rank : Nat) :
    ∃ s t, rank = s * binade + t ∧ (s = 0 ∨ binade ≤ t) ∧ t ≤ 2 * binade := by
  have hb := binade_eq
  rcases Nat.lt_or_ge rank binade with h | h
  · exact ⟨0, rank, by omega, Or.inl rfl, by omega⟩
  · refine ⟨rank / binade - 1, binade + rank % binade, ?_, Or.inr (by omega), ?_⟩
    · rw [hb] at *
      omega
    · rw [hb] at *
      omega

theorem units_strictMono : StrictMono units := by
  apply strictMono_nat_of_lt_succ
  intro rank
  obtain ⟨s, t, rfl, h, ht⟩ := exists_eq_binade_add rank
  -- Within a binade the steps are equal, and at its end the next one is at least as wide.
  calc
    units (s * binade + t) = t * Nat.pow 2 s := units_add h ht
    _ < (t + 1) * Nat.pow 2 s := Nat.mul_lt_mul_of_pos_right (Nat.lt_succ_self t) (Nat.two_pow_pos s)
    _ ≤ units (s * binade + t + 1) := le_units_succ h ht

/-- Twice the point half-way between the magnitude of a rank and the next one, in units. -/
def twiceHalfway (rank : Nat) : Nat :=
  units rank + units (rank + 1)

/-- A whole number nearest to a quotient. The quotient lies between the points half-way to the two
neighbours of the number, and on one of them only if the number is even. -/
structure NearestWhole (num den whole : Nat) : Prop where
  below : 2 * num ≤ (2 * whole + 1) * den
  even_of_below : 2 * num = (2 * whole + 1) * den → whole % 2 = 0
  above : 2 * whole * den ≤ 2 * num + den
  even_of_above : 2 * whole * den = 2 * num + den → whole % 2 = 0

theorem nearestWhole_roundDiv {den : Nat} (hden : 0 < den) (num : Nat) :
    NearestWhole num den (roundDiv num den) := by
  have hdiv := Nat.div_add_mod num den
  have hmod := Nat.mod_lt num hden
  have htwice : 2 * num = 2 * (num / den) * den + 2 * (num % den) := by
    calc
      2 * num = 2 * (den * (num / den) + num % den) := by rw [hdiv]
      _ = 2 * (num / den) * den + 2 * (num % den) := by ring
  unfold roundDiv
  simp only
  generalize num / den = quotient at *
  generalize num % den = remainder at *
  have hodd : (2 * quotient + 1) * den = 2 * quotient * den + den := by ring
  have hnext : (2 * (quotient + 1) + 1) * den = 2 * quotient * den + 3 * den := by ring
  have hup : 2 * (quotient + 1) * den = 2 * quotient * den + 2 * den := by ring
  split
  · constructor <;> omega
  · constructor <;> omega

/-- The shift leaves a significand of the binade that the shift belongs to. -/
theorem binade_mul_le {den : Nat} (hden : 0 < den) (num : Nat) (h : (num / den).log2 - 52 ≠ 0) :
    binade * (den * Nat.pow 2 ((num / den).log2 - 52)) ≤ num := by
  have hpos : num / den ≠ 0 := by
    intro hzero
    rw [hzero] at h
    exact h rfl
  have hlog : Nat.pow 2 52 * Nat.pow 2 ((num / den).log2 - 52) = 2 ^ (num / den).log2 := by
    rw [Nat.pow_eq, Nat.pow_eq, ← Nat.pow_add]
    congr 1
    omega
  calc
    binade * (den * Nat.pow 2 ((num / den).log2 - 52))
      = Nat.pow 2 52 * Nat.pow 2 ((num / den).log2 - 52) * den := by
        rw [show binade = Nat.pow 2 52 from rfl]
        ring
    _ = 2 ^ (num / den).log2 * den := by rw [hlog]
    _ ≤ num := (Nat.le_div_iff_mul_le hden).mp (Nat.log2_self_le hpos)

theorem lt_two_binade_mul {den : Nat} (hden : 0 < den) (num : Nat) :
    num < 2 * binade * (den * Nat.pow 2 ((num / den).log2 - 52)) := by
  have hlog : 2 ^ ((num / den).log2 + 1) ≤ Nat.pow 2 53 * Nat.pow 2 ((num / den).log2 - 52) := by
    rw [Nat.pow_eq, Nat.pow_eq, ← Nat.pow_add]
    exact Nat.pow_le_pow_right (by omega) (by omega)
  have hlt : num / den < Nat.pow 2 53 * Nat.pow 2 ((num / den).log2 - 52) :=
    Nat.lt_of_lt_of_le Nat.lt_log2_self hlog
  calc
    num < Nat.pow 2 53 * Nat.pow 2 ((num / den).log2 - 52) * den :=
      (Nat.div_lt_iff_lt_mul hden).mp hlt
    _ = 2 * binade * (den * Nat.pow 2 ((num / den).log2 - 52)) := by
        rw [show 2 * binade = Nat.pow 2 53 from rfl]
        ring

section
variable {num den s t : Nat}

theorem NearestWhole.in_binade (h : NearestWhole num (den * Nat.pow 2 s) t)
    (hlow : s ≠ 0 → binade * (den * Nat.pow 2 s) ≤ num)
    (hhigh : num < 2 * binade * (den * Nat.pow 2 s)) :
    (s = 0 ∨ binade ≤ t) ∧ t ≤ 2 * binade := by
  have hbelow := h.below
  have habove := h.above
  generalize den * Nat.pow 2 s = step at *
  constructor
  · -- A significand further down would be a whole step and a half below the quotient.
    by_contra hlt
    have hnum := hlow (by omega)
    have hfew := Nat.mul_le_mul_right step (show 2 * t + 1 + 1 ≤ 2 * binade by omega)
    nlinarith
  · by_contra hgt
    have hmany := Nat.mul_le_mul_right step (show 2 * (2 * binade + 1) ≤ 2 * t by omega)
    nlinarith

/-- A significand nearest to the shifted quotient gives the rank below whose upper half-way point the
quotient lies. -/
theorem NearestWhole.below_units (h : NearestWhole num (den * Nat.pow 2 s) t)
    (hs : s = 0 ∨ binade ≤ t) (ht : t ≤ 2 * binade) :
    2 * num ≤ twiceHalfway (s * binade + t) * den ∧
      (2 * num = twiceHalfway (s * binade + t) * den → (s * binade + t) % 2 = 0) := by
  have hb := binade_eq
  have hstep : (2 * t + 1) * (den * Nat.pow 2 s) ≤ twiceHalfway (s * binade + t) * den := by
    calc
      (2 * t + 1) * (den * Nat.pow 2 s)
        = (t * Nat.pow 2 s + (t + 1) * Nat.pow 2 s) * den := by ring
      _ ≤ twiceHalfway (s * binade + t) * den := by
        apply Nat.mul_le_mul_right
        rw [twiceHalfway, units_add hs ht]
        exact Nat.add_le_add_left (le_units_succ hs ht) _
  refine ⟨Nat.le_trans h.below hstep, fun heq => ?_⟩
  -- On the point itself the significand is even, and a binade has an even number of ranks.
  have heven := h.even_of_below (Nat.le_antisymm h.below (heq ▸ hstep))
  rw [hb]
  omega

/-- The same for the lower half-way point. Below the least significand of a binade the gap is half as
wide, so there the quotient has to be known to lie in the binade. -/
theorem NearestWhole.above_units (h : NearestWhole num (den * Nat.pow 2 s) t) (hden : 0 < den)
    (hs : s = 0 ∨ binade ≤ t) (ht : t ≤ 2 * binade)
    (hn : s ≠ 0 → binade * (den * Nat.pow 2 s) ≤ num) {p : Nat} (hp : s * binade + t = p + 1) :
    twiceHalfway p * den ≤ 2 * num ∧
      (twiceHalfway p * den = 2 * num → (s * binade + t) % 2 = 0) := by
  have hb := binade_eq
  by_cases hinner : s = 0 ∨ binade < t
  · -- Inside a binade the rank below has the significand below.
    obtain ⟨u, rfl⟩ : ∃ u, t = u + 1 := by
      refine ⟨t - 1, ?_⟩
      rcases hinner with rfl | hlt <;> omega
    have hrank : p = s * binade + u := by omega
    have hpoint : twiceHalfway p * den + den * Nat.pow 2 s
        = 2 * (u + 1) * (den * Nat.pow 2 s) := by
      rw [hrank, twiceHalfway, units_add (by omega) (by omega), Nat.add_assoc, units_add hs ht]
      ring
    have habove := h.above
    refine ⟨by omega, fun heq => ?_⟩
    have heven := h.even_of_above (by omega)
    rw [hb]
    omega
  · -- At its lower end the quotient is not below the magnitude itself.
    obtain ⟨hs0, hend⟩ : s ≠ 0 ∧ t = binade := by omega
    have hlt : twiceHalfway p < 2 * units (p + 1) := by
      have : units p < units (p + 1) := units_strictMono (Nat.lt_succ_self p)
      rw [twiceHalfway]
      omega
    have hstrict : twiceHalfway p * den < 2 * num := by
      calc
        twiceHalfway p * den < 2 * units (p + 1) * den := Nat.mul_lt_mul_of_pos_right hlt hden
        _ = 2 * (binade * (den * Nat.pow 2 s)) := by
          rw [← hp, units_add hs ht, hend]
          ring
        _ ≤ 2 * num := Nat.mul_le_mul_left 2 (hn hs0)
    exact ⟨Nat.le_of_lt hstrict, fun heq => absurd heq (Nat.ne_of_lt hstrict)⟩

end

def unit : ℚ :=
  1 / 2 ^ 1074

theorem unit_pos : 0 < unit :=
  one_div_pos.mpr (pow_pos two_pos 1074)

theorem cast_pow_two (n : Nat) : ((Nat.pow 2 n : Nat) : ℚ) = 2 ^ n := by
  rw [Nat.pow_eq, Nat.cast_pow, Nat.cast_ofNat]

theorem cast_pow_two_mul (n : Nat) : ((Nat.pow 2 n : Nat) : ℚ) * (1 / 2 ^ n) = 1 := by
  rw [cast_pow_two]
  exact mul_one_div_cancel (pow_ne_zero n two_ne_zero)

theorem cast_pow_two_pos (n : Nat) : (0 : ℚ) < (Nat.pow 2 n : Nat) := by
  rw [cast_pow_two]
  exact pow_pos two_pos n

theorem pow_mul_unit : ((Nat.pow 2 1074 : Nat) : ℚ) * unit = 1 := by
  unfold unit
  apply cast_pow_two_mul

/-- The magnitude of a rank. That of infinity is where the next binade would start. -/
def magnitude (rank : Nat) : ℚ :=
  units rank * unit

def midpoint (rank : Nat) : ℚ :=
  (magnitude rank + magnitude (rank + 1)) / 2

theorem two_mul_midpoint (rank : Nat) : 2 * midpoint rank = twiceHalfway rank * unit := by
  rw [midpoint, magnitude, magnitude, twiceHalfway, Nat.cast_add]
  ring

theorem magnitude_strictMono : StrictMono magnitude := by
  intro r s h
  have hunits : (units r : ℚ) < units s := Nat.cast_lt.mpr (units_strictMono h)
  exact mul_lt_mul_of_pos_right hunits unit_pos

theorem midpoint_strictMono : StrictMono midpoint := by
  intro r s h
  have hr := magnitude_strictMono h
  have hs := magnitude_strictMono (Nat.succ_lt_succ h)
  rw [midpoint, midpoint]
  linarith

section
variable {den : Nat} (hden : 0 < den) (num rank : Nat)
include hden

theorem div_sub_midpoint :
    (num / den - midpoint rank : ℚ) * (2 * (den * (Nat.pow 2 1074 : Nat)))
      = (2 * (num * Nat.pow 2 1074) : Nat) - (twiceHalfway rank * den : Nat) := by
  have hd : (den : ℚ) ≠ 0 := Nat.cast_ne_zero.mpr hden.ne'
  have hunit := pow_mul_unit
  have htwice := two_mul_midpoint rank
  push_cast
  generalize ((Nat.pow 2 1074 : Nat) : ℚ) = scale at *
  calc
    (num / den - midpoint rank : ℚ) * (2 * (den * scale))
      = 2 * (num / den * den * scale) - 2 * midpoint rank * den * scale := by ring
    _ = 2 * (num * scale) - twiceHalfway rank * den * (scale * unit) := by
        rw [div_mul_cancel₀ _ hd, htwice]
        ring
    _ = 2 * (num * scale) - twiceHalfway rank * den := by rw [hunit, mul_one]

theorem two_mul_den_mul_pow_pos : (0 : ℚ) < 2 * (den * (Nat.pow 2 1074 : Nat)) := by
  apply mul_pos two_pos
  apply mul_pos (Nat.cast_pos.mpr hden)
  apply cast_pow_two_pos

theorem div_le_midpoint_iff :
    (num / den : ℚ) ≤ midpoint rank ↔ 2 * (num * Nat.pow 2 1074) ≤ twiceHalfway rank * den := by
  rw [← not_lt, ← sub_pos, ← mul_pos_iff_of_pos_right (two_mul_den_mul_pow_pos hden),
    div_sub_midpoint hden, sub_pos, Nat.cast_lt, not_lt]

theorem midpoint_le_div_iff :
    midpoint rank ≤ (num / den : ℚ) ↔ twiceHalfway rank * den ≤ 2 * (num * Nat.pow 2 1074) := by
  rw [← sub_nonneg, ← mul_nonneg_iff_of_pos_right (two_mul_den_mul_pow_pos hden),
    div_sub_midpoint hden, sub_nonneg, Nat.cast_le]

theorem div_eq_midpoint_iff :
    (num / den : ℚ) = midpoint rank ↔ 2 * (num * Nat.pow 2 1074) = twiceHalfway rank * den := by
  rw [le_antisymm_iff, div_le_midpoint_iff hden, midpoint_le_div_iff hden, le_antisymm_iff]

end

/-- A rank nearest to a rational. Up to infinity, the rational lies between the points half-way to
the magnitudes of the two neighbours, and on one of them only if the rank is even. -/
structure RoundsTo (q : ℚ) (rank : Nat) : Prop where
  le_infinity : rank ≤ infinityRank
  below : rank < infinityRank → q ≤ midpoint rank
  even_of_below : rank < infinityRank → q = midpoint rank → rank % 2 = 0
  above : ∀ p, rank = p + 1 → midpoint p ≤ q
  even_of_above : ∀ p, rank = p + 1 → midpoint p = q → rank % 2 = 0

/-- What is nearest to some rank beyond infinity rounds to infinity. -/
theorem roundsTo_min {q : ℚ} {rank : Nat} (hbelow : q ≤ midpoint rank)
    (heven : q = midpoint rank → rank % 2 = 0) (habove : ∀ p, rank = p + 1 → midpoint p ≤ q)
    (heven' : ∀ p, rank = p + 1 → midpoint p = q → rank % 2 = 0) :
    RoundsTo q (min rank infinityRank) := by
  rcases Nat.le_total rank infinityRank with hle | hge
  · rw [Nat.min_eq_left hle]
    exact ⟨hle, fun _ => hbelow, fun _ => heven, habove, heven'⟩
  · rw [Nat.min_eq_right hge]
    refine ⟨Nat.le_refl _, fun h => absurd h (Nat.lt_irrefl _), fun h => absurd h (Nat.lt_irrefl _),
      fun p hp => ?_, fun _ _ _ => rfl⟩
    obtain ⟨p', rfl⟩ : ∃ p', rank = p' + 1 := ⟨rank - 1, by omega⟩
    calc
      midpoint p ≤ midpoint p' := midpoint_strictMono.monotone (by omega)
      _ ≤ q := habove p' rfl

theorem roundsTo_nearestRank {den : Nat} (hden : 0 < den) (num : Nat) :
    RoundsTo (num / den) (nearestRank num den) := by
  have hle := div_le_midpoint_iff hden num
  have hge := midpoint_le_div_iff hden num
  have heq := div_eq_midpoint_iff hden num
  unfold nearestRank
  simp only
  generalize num * Nat.pow 2 1074 = scaled at *
  have hlow := binade_mul_le hden scaled
  have hhigh := lt_two_binade_mul hden scaled
  generalize (scaled / den).log2 - 52 = s at *
  have hwhole := nearestWhole_roundDiv (Nat.mul_pos hden (Nat.two_pow_pos s)) scaled
  generalize roundDiv scaled (den * 2 ^ s) = t at *
  obtain ⟨hs, ht⟩ := hwhole.in_binade hlow hhigh
  have hbelow := hwhole.below_units hs ht
  have habove := fun p (hp : s * binade + t = p + 1) => hwhole.above_units hden hs ht hlow hp
  apply roundsTo_min
  · exact (hle _).mpr hbelow.1
  · exact fun h => hbelow.2 ((heq _).mp h)
  · exact fun p hp => (hge p).mpr (habove p hp).1
  · exact fun p hp h => (habove p hp).2 ((heq p).mp h.symm).symm

end LoxFront.Binary64
