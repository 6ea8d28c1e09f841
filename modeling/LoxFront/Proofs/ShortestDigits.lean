import LoxFront.Number.Shortest
import LoxFront.Proofs.NearestValue

/-! The reach of a rank is an interval that holds just the decimals that round to the rank, so the
first power of ten with a multiple in it is the greatest one. -/
namespace LoxFront

namespace Reach
variable {g : Reach}

/-! ## Searching -/

/-- A reach around a positive magnitude: its ends are on the two sides of the magnitude, and not
further up than twice as far. -/
structure Around (g : Reach) : Prop where
  low_pos : 0 < g.low
  low_lt : g.low < g.value
  lt_high : g.value < g.high
  high_le : g.high ≤ 2 * g.value

theorem holds_iff {x : Nat} : g.holds x = true ↔
    (g.low ≤ x ∧ (g.low = x → g.closed = true)) ∧ (x ≤ g.high ∧ (x = g.high → g.closed = true)) := by
  unfold holds
  cases g.closed <;> simp
  omega

theorem Around.holds_value (h : g.Around) : g.holds g.value = true := by
  have hlow := h.low_lt
  have hhigh := h.lt_high
  rw [holds_iff]
  omega

theorem holds_of_between {x y z : Nat} (hx : g.holds x = true) (hz : g.holds z = true)
    (hxy : x ≤ y) (hyz : y ≤ z) : g.holds y = true := by
  rw [holds_iff] at *
  obtain ⟨⟨hlow, hlow'⟩, -⟩ := hx
  obtain ⟨-, hhigh, hhigh'⟩ := hz
  refine ⟨⟨by omega, fun heq => hlow' (by omega)⟩, by omega, fun heq => hhigh' (by omega)⟩

theorem holds_of_pick? {step digits : Nat} (h : g.pick? step = some digits) :
    g.holds (digits * step) = true := by
  unfold pick? at h
  simp only at h
  split at h
  · next hbelow habove =>
    split at h
    · exact Option.some.inj h ▸ hbelow
    · exact Option.some.inj h ▸ habove
  · next hbelow _ => exact Option.some.inj h ▸ hbelow
  · next _ habove => exact Option.some.inj h ▸ habove
  · cases h

theorem Around.pick?_ne_none (h : g.Around) {step : Nat} (hstep : 0 < step) {k : Nat}
    (hk : g.holds (k * step) = true) : g.pick? step ≠ none := by
  have hbelow : g.value / step * step ≤ g.value := Nat.div_mul_le_self _ _
  have habove : g.value ≤ (g.value / step + 1) * step :=
    Nat.le_of_lt (Nat.lt_mul_of_div_lt (Nat.lt_succ_self _) hstep)
  have hnext : g.holds (g.value / step * step) = true ∨
      g.holds ((g.value / step + 1) * step) = true := by
    rcases Nat.lt_or_ge (g.value / step) k with hlt | hge
    · exact .inr (holds_of_between h.holds_value hk habove (Nat.mul_le_mul_right step hlt))
    · exact .inl (holds_of_between hk h.holds_value (Nat.mul_le_mul_right step hge) hbelow)
  unfold pick?
  simp only
  split
  · split <;> exact Option.some_ne_none _
  · exact Option.some_ne_none _
  · exact Option.some_ne_none _
  · next hno hno' =>
    rw [hno, hno'] at hnext
    rcases hnext with h | h <;> cases h

/-- What the search from a power of ten finds: a multiple of a power in the reach, such that there is
none of any greater power up to the first. -/
structure Found (g : Reach) (start : Nat) (d : Decimal) (power : Nat) : Prop where
  exponent_eq : d.exponent = power - g.places
  holds : g.holds (d.digits * 10 ^ power) = true
  none_above : ∀ p, power < p → p ≤ start → g.pick? (10 ^ p) = none

theorem Around.exists_found (h : g.Around) (p : Nat) : ∃ power, g.Found p (g.search p) power := by
  induction p with
  | zero =>
    refine ⟨0, (Int.zero_sub _).symm, ?_, fun q hq hq' => absurd hq (by omega)⟩
    rw [search, pow_zero, mul_one]
    exact h.holds_value
  | succ p ih =>
    unfold search
    cases hpick : g.pick? (Nat.pow 10 (p + 1)) with
    | some digits => exact ⟨p + 1, rfl, holds_of_pick? hpick, fun q hq hq' => absurd hq (by omega)⟩
    | none =>
      obtain ⟨power, hexp, hholds, hnone⟩ := ih
      refine ⟨power, hexp, hholds, fun q hq hq' => ?_⟩
      rcases Nat.lt_or_eq_of_le hq' with hlt | rfl
      · exact hnone q hq (by omega)
      · exact hpick

theorem lt_pow_decimalLength (n : Nat) : n < 10 ^ decimalLength n := by
  induction n using decimalLength.induct with
  | case1 n h =>
    rw [decimalLength, if_pos h]
    exact h
  | case2 n h ih =>
    rw [decimalLength, if_neg h, pow_succ]
    omega

/-- The search starts high enough: no multiple of a greater power is in the reach. -/
theorem Around.le_decimalLength (h : g.Around) {k p : Nat} (hk : g.holds (k * 10 ^ p) = true) :
    p ≤ decimalLength g.value := by
  by_contra hlt
  obtain ⟨⟨hlow, -⟩, hhigh, -⟩ := holds_iff.mp hk
  have hpos : 0 < k * 10 ^ p := Nat.lt_of_lt_of_le h.low_pos hlow
  have hle := h.high_le
  have hbig : 10 * g.value < 10 ^ p := by
    calc
      10 * g.value < 10 * 10 ^ decimalLength g.value :=
        Nat.mul_lt_mul_of_pos_left (lt_pow_decimalLength _) (by omega)
      _ = 10 ^ (decimalLength g.value + 1) := by ring
      _ ≤ 10 ^ p := Nat.pow_le_pow_right (by omega) (by omega)
  have hone : 10 ^ p ≤ k * 10 ^ p := Nat.le_mul_of_pos_left _ (Nat.pos_of_mul_pos_right hpos)
  omega

theorem Around.exists_power (h : g.Around) : ∃ power : Nat,
    g.shortest.exponent = power - g.places ∧ g.holds (g.shortest.digits * 10 ^ power) = true ∧
      ∀ k p, g.holds (k * 10 ^ p) = true → p ≤ power := by
  obtain ⟨power, hfound⟩ := h.exists_found (decimalLength g.value)
  refine ⟨power, hfound.exponent_eq, hfound.holds, fun k p hk => ?_⟩
  by_contra hlt
  have hnone := hfound.none_above p (by omega) (h.le_decimalLength hk)
  exact h.pick?_ne_none (Nat.pow_pos (by omega)) hk hnone

end Reach

namespace Binary64

/-! ## The reach of a rank -/

theorem significand_cases (rank : Nat) :
    scale rank * binade + significand rank = rank ∧
      (scale rank = 0 ∨ binade ≤ significand rank) ∧ significand rank < 2 * binade := by
  have hb := binade_eq
  unfold scale significand
  rw [hb]
  split <;> omega

/-- A quarter of a step of the significand, in units of ten to the power of minus the places. -/
def quarter (rank : Nat) : Nat :=
  if 1076 ≤ scale rank then Nat.pow 2 (scale rank - 1076) else Nat.pow 5 (1076 - scale rank)

/-- Whether the step below a rank is half as wide as the one above it. -/
abbrev Narrow (rank : Nat) : Prop :=
  rank % binade = 0 ∧ 0 < scale rank

theorem reach_eq (rank : Nat) : Reach.ofRank rank =
    { low := (4 * significand rank - if Narrow rank then 1 else 2) * quarter rank
      value := 4 * significand rank * quarter rank
      high := (4 * significand rank + 2) * quarter rank
      closed := rank % 2 = 0
      places := 1076 - scale rank } :=
  rfl

theorem pow_step (n s : Nat) :
    (if n ≤ s then Nat.pow 2 (s - n) else Nat.pow 5 (n - s)) * 2 ^ n = 2 ^ s * 10 ^ (n - s) := by
  split
  · next h =>
    rw [Nat.sub_eq_zero_of_le h, pow_zero, mul_one, Nat.pow_eq, ← pow_add, Nat.sub_add_cancel h]
  · next h =>
    obtain ⟨k, rfl⟩ : ∃ k, n = s + k := ⟨n - s, by omega⟩
    rw [Nat.add_sub_cancel_left, Nat.pow_eq, pow_add, show 10 = 5 * 2 from rfl, mul_pow]
    ring

theorem pow_step_div (n s : Nat) :
    ((if n ≤ s then Nat.pow 2 (s - n) else Nat.pow 5 (n - s) : Nat) : ℚ) / 10 ^ (n - s) =
      2 ^ s * (1 / 2 ^ n) := by
  have hstep := congrArg (Nat.cast (R := ℚ)) (pow_step n s)
  rw [mul_one_div, div_eq_div_iff (pow_ne_zero _ (by norm_num)) (pow_ne_zero _ two_ne_zero)]
  exact_mod_cast hstep

theorem quarter_pos (rank : Nat) : 0 < quarter rank := by
  unfold quarter
  split
  · exact Nat.pow_pos (by omega)
  · exact Nat.pow_pos (by omega)

theorem one_div_pow_add_two (n : Nat) : (1 : ℚ) / 2 ^ (n + 2) = 1 / 2 ^ n / 4 := by
  rw [pow_add, div_div, show (2 : ℚ) ^ 2 = 4 by norm_num]

theorem quarter_div (rank : Nat) :
    (quarter rank : ℚ) / 10 ^ (Reach.ofRank rank).places = 2 ^ scale rank * (unit / 4) := by
  have hunit : unit / 4 = 1 / 2 ^ 1076 := (one_div_pow_add_two 1074).symm
  rw [hunit]
  exact pow_step_div 1076 (scale rank)

theorem mul_quarter_div (k rank : Nat) :
    ((k * quarter rank : Nat) : ℚ) / 10 ^ (Reach.ofRank rank).places =
      k * (2 ^ scale rank * (unit / 4)) := by
  rw [Nat.cast_mul, mul_div_assoc, quarter_div]

theorem value_div (rank : Nat) :
    ((Reach.ofRank rank).value : ℚ) / 10 ^ (Reach.ofRank rank).places = magnitude rank := by
  have hvalue : (Reach.ofRank rank).value = 4 * significand rank * quarter rank := rfl
  have hunits : units rank = significand rank * Nat.pow 2 (scale rank) := rfl
  rw [hvalue, mul_quarter_div, magnitude, hunits]
  push_cast [Nat.pow_eq]
  ring

theorem high_div (rank : Nat) :
    ((Reach.ofRank rank).high : ℚ) / 10 ^ (Reach.ofRank rank).places = midpoint rank := by
  -- The next rank has the next significand, also where that ends the binade.
  obtain ⟨hrank, hs, ht⟩ := significand_cases rank
  have hhigh : (Reach.ofRank rank).high = (4 * significand rank + 2) * quarter rank := rfl
  have hunits := units_add hs ht.le
  have hnext := units_add (s := scale rank) (t := significand rank + 1) (by omega) ht
  rw [← Nat.add_assoc] at hnext
  rw [hrank] at hunits hnext
  rw [hhigh, mul_quarter_div, midpoint, magnitude, magnitude, hunits, hnext]
  push_cast [Nat.pow_eq]
  ring

/-- Below the least significand of a binade the step is half as wide. -/
theorem two_mul_twiceHalfway {p rank : Nat} (h : rank = p + 1) :
    2 * twiceHalfway p =
      (4 * significand rank - if Narrow rank then 1 else 2) * Nat.pow 2 (scale rank) := by
  have hb := binade_eq
  obtain ⟨hrank, hs, ht⟩ := significand_cases rank
  have hunits := units_add hs ht.le
  rw [hrank] at hunits
  rw [twiceHalfway, ← h, hunits]
  by_cases hnarrow : Narrow rank
  · rw [if_pos hnarrow]
    obtain ⟨hmod, hscale⟩ := hnarrow
    -- The rank below ends the binade before.
    obtain ⟨s, hs'⟩ : ∃ s, scale rank = s + 1 := ⟨scale rank - 1, by omega⟩
    have hsig : significand rank = binade := by
      unfold significand
      rw [if_neg (by rw [hb] at *; omega), hmod, Nat.add_zero]
    have hp : s * binade + (2 * binade - 1) = p := by
      rw [hsig, hs', hb] at hrank
      rw [hb]
      omega
    have hprev := units_add (s := s) (t := 2 * binade - 1) (by omega) (by omega)
    have hpow : Nat.pow 2 (s + 1) = Nat.pow 2 s * 2 := rfl
    have hless : (4 * binade - 1) * (Nat.pow 2 s * 2) =
        2 * ((2 * binade - 1) * Nat.pow 2 s + binade * (Nat.pow 2 s * 2)) := by
      rw [hb]
      ring
    rw [← hp, hprev, hsig, hs', hpow, hless]
  · rw [if_neg hnarrow]
    obtain ⟨u, hu⟩ : ∃ u, significand rank = u + 1 := by
      refine ⟨significand rank - 1, ?_⟩
      rw [hb] at *
      omega
    have hinner : scale rank = 0 ∨ binade ≤ u := by
      by_contra hno
      exact hnarrow ⟨by rw [hb] at *; omega, by omega⟩
    have hprev := units_add (s := scale rank) (t := u) hinner (by omega)
    have hp : scale rank * binade + u = p := by omega
    have hless : 4 * (u + 1) - 2 = 2 * (u + (u + 1)) := by omega
    rw [← hp, hprev, hu, hless]
    ring

theorem low_div {p rank : Nat} (h : rank = p + 1) :
    ((Reach.ofRank rank).low : ℚ) / 10 ^ (Reach.ofRank rank).places = midpoint p := by
  have hlow : (Reach.ofRank rank).low =
      (4 * significand rank - if Narrow rank then 1 else 2) * quarter rank := rfl
  have htwice := congrArg (Nat.cast (R := ℚ)) (two_mul_twiceHalfway h)
  have hmid := two_mul_midpoint p
  rw [Nat.cast_mul, Nat.cast_mul, cast_pow_two, Nat.cast_ofNat] at htwice
  rw [hlow, mul_quarter_div, ← mul_assoc, ← htwice]
  linarith

theorem significand_pos {rank : Nat} (h : 0 < rank) : 0 < significand rank := by
  unfold significand
  split
  · exact h
  · exact Nat.add_pos_left (by decide) _

theorem around_ofRank {rank : Nat} (h : 0 < rank) : (Reach.ofRank rank).Around := by
  have hsig := significand_pos h
  have hquarter := quarter_pos rank
  have hless : 0 < (if Narrow rank then 1 else 2) ∧ (if Narrow rank then 1 else 2) ≤ 2 := by
    split <;> omega
  rw [reach_eq]
  generalize (if Narrow rank then 1 else 2) = less at *
  constructor
  · exact Nat.mul_pos (by omega) hquarter
  · exact Nat.mul_lt_mul_of_pos_right (by omega) hquarter
  · exact Nat.mul_lt_mul_of_pos_right (by omega) hquarter
  · calc
      (4 * significand rank + 2) * quarter rank
        ≤ 2 * (4 * significand rank) * quarter rank := Nat.mul_le_mul_right _ (by omega)
      _ = 2 * (4 * significand rank * quarter rank) := Nat.mul_assoc _ _ _

theorem ten_pow_pos (n : Nat) : (0 : ℚ) < 10 ^ n :=
  pow_pos (by norm_num) n

theorem div_le_div_pow {x y : Nat} (n : Nat) : (x / 10 ^ n : ℚ) ≤ y / 10 ^ n ↔ x ≤ y := by
  rw [div_le_div_iff_of_pos_right (ten_pow_pos n), Nat.cast_le]

theorem div_eq_div_pow {x y : Nat} (n : Nat) : (x / 10 ^ n : ℚ) = y / 10 ^ n ↔ x = y := by
  rw [le_antisymm_iff, div_le_div_pow, div_le_div_pow, le_antisymm_iff]

theorem mul_pow_div_pow (k p n : Nat) :
    ((k * 10 ^ p : Nat) : ℚ) / 10 ^ n = k * 10 ^ ((p : ℤ) - n) := by
  rw [zpow_sub₀ (by norm_num), zpow_natCast, zpow_natCast]
  push_cast
  ring

/-- The reach of a rank holds the decimals that round to the rank. -/
theorem holds_iff_roundsTo {rank : Nat} (h : 0 < rank) (hfinite : rank < infinityRank) (x : Nat) :
    (Reach.ofRank rank).holds x = true ↔
      RoundsTo (x / 10 ^ (Reach.ofRank rank).places) rank := by
  obtain ⟨p, hp⟩ : ∃ p, rank = p + 1 := ⟨rank - 1, by omega⟩
  have hclosed : (Reach.ofRank rank).closed = true ↔ rank % 2 = 0 := decide_eq_true_iff
  have hle := fun y z => div_le_div_pow (x := y) (y := z) (Reach.ofRank rank).places
  have heq := fun y z => div_eq_div_pow (x := y) (y := z) (Reach.ofRank rank).places
  rw [Reach.holds_iff, hclosed, ← hle, ← heq _ x, ← hle, ← heq x, low_div hp, high_div]
  constructor
  · rintro ⟨⟨hlow, hlow'⟩, hhigh, hhigh'⟩
    have hbelow : ∀ q, rank = q + 1 → q = p := fun q hq => by omega
    exact ⟨hfinite.le, fun _ => hhigh, fun _ => hhigh', fun q hq => hbelow q hq ▸ hlow,
      fun q hq => hbelow q hq ▸ hlow'⟩
  · intro hround
    exact ⟨⟨hround.above p hp, hround.even_of_above p hp⟩,
      hround.below hfinite, hround.even_of_below hfinite⟩

theorem RoundsTo.convex {q q' r : ℚ} {rank : Nat} (h : RoundsTo q rank) (h' : RoundsTo q' rank)
    (hle : q ≤ r) (hle' : r ≤ q') : RoundsTo r rank := by
  refine ⟨h.le_infinity, fun hr => hle'.trans (h'.below hr), fun hr heq => ?_,
    fun p hp => (h.above p hp).trans hle, fun p hp heq => ?_⟩
  · exact h'.even_of_below hr (le_antisymm (h'.below hr) (heq ▸ hle'))
  · exact h.even_of_above p hp (le_antisymm (h.above p hp) (heq ▸ hle))

theorem RoundsTo.unique {q : ℚ} {r s : Nat} (h : RoundsTo q r) (h' : RoundsTo q s) : r = s :=
  Nat.le_antisymm (h.le_of_le h' le_rfl) (h'.le_of_le h le_rfl)

theorem roundsTo_zero_iff {rank : Nat} : RoundsTo 0 rank ↔ rank = 0 := by
  have hmid : 0 ≤ midpoint 0 := by
    rw [midpoint_zero]
    exact (one_div_pos.mpr (pow_pos two_pos 1075)).le
  constructor
  · exact fun hround => hround.eq_zero_iff.mpr hmid
  · rintro rfl
    exact ⟨Nat.zero_le _, fun _ => hmid, fun _ _ => rfl, fun p hp => absurd hp (by omega),
      fun _ _ _ => rfl⟩

/-! ## The shortest decimal -/

section
variable {rank : Nat} (h : 0 < rank) (hfinite : rank < infinityRank)
include h hfinite

/-- The shortest decimal rounds to the rank, and so does no multiple of a greater power of ten. -/
theorem shortest_coarsest : RoundsTo (shortest rank).value rank ∧
    ∀ (k : Nat) (e : ℤ), RoundsTo (k * 10 ^ e) rank → e ≤ (shortest rank).exponent := by
  have hshortest : shortest rank = (Reach.ofRank rank).shortest := if_neg h.ne'
  obtain ⟨power, hexp, hholds, hmax⟩ := (around_ofRank h).exists_power
  rw [hshortest]
  constructor
  · rw [Decimal.value, hexp, ← mul_pow_div_pow]
    exact (holds_iff_roundsTo h hfinite _).mp hholds
  · intro k e hk
    rw [hexp]
    by_contra hlt
    obtain ⟨p, hp⟩ : ∃ p : Nat, e = p - (Reach.ofRank rank).places :=
      ⟨(e + (Reach.ofRank rank).places).toNat, by omega⟩
    rw [hp, ← mul_pow_div_pow] at hk
    have := hmax k p ((holds_iff_roundsTo h hfinite _).mpr hk)
    omega

/-- No decimal with fewer digits than the shortest one rounds to the rank. -/
theorem digits_shortest_lt {m k : Nat} {e : ℤ} (hm : m < 10 ^ k) (hround : RoundsTo (m * 10 ^ e) rank) :
    (shortest rank).digits < 10 ^ k := by
  obtain ⟨hshortest, hmax⟩ := shortest_coarsest h hfinite
  by_contra hge
  have hten : (0 : ℚ) < 10 := by norm_num
  have he := hmax m e hround
  have hlow : (m * 10 ^ e : ℚ) ≤ (1 : Nat) * 10 ^ ((k : ℤ) + (shortest rank).exponent) := by
    calc
      (m * 10 ^ e : ℚ) ≤ 10 ^ k * 10 ^ e := by
        have hcast : (m : ℚ) ≤ 10 ^ k := by exact_mod_cast hm.le
        exact mul_le_mul_of_nonneg_right hcast (zpow_nonneg hten.le e)
      _ = 10 ^ ((k : ℤ) + e) := by rw [zpow_add₀ hten.ne', zpow_natCast]
      _ ≤ 10 ^ ((k : ℤ) + (shortest rank).exponent) :=
        zpow_le_zpow_right₀ (by norm_num) (by omega)
      _ = (1 : Nat) * 10 ^ ((k : ℤ) + (shortest rank).exponent) := by rw [Nat.cast_one, one_mul]
  have hhigh : ((1 : Nat) * 10 ^ ((k : ℤ) + (shortest rank).exponent) : ℚ) ≤ (shortest rank).value := by
    have hcast : (10 ^ k : ℚ) ≤ (shortest rank).digits := by exact_mod_cast Nat.le_of_not_lt hge
    rw [Nat.cast_one, one_mul, zpow_add₀ hten.ne', zpow_natCast, Decimal.value]
    exact mul_le_mul_of_nonneg_right hcast (zpow_nonneg hten.le _)
  have hpower := hmax 1 _ (hround.convex hshortest hlow hhigh)
  obtain rfl : k = 0 := by omega
  obtain rfl : m = 0 := by omega
  rw [Nat.cast_zero, zero_mul] at hround
  exact h.ne' (roundsTo_zero_iff.mp hround)

end

theorem roundsTo_shortest {rank : Nat} (hfinite : rank < infinityRank) :
    RoundsTo (shortest rank).value rank := by
  rcases Nat.eq_zero_or_pos rank with rfl | h
  · -- Zero is not searched for.
    have hzero : (shortest 0).value = 0 := by
      rw [Decimal.value, show shortest 0 = ⟨0, 0⟩ from rfl, Nat.cast_zero, zero_mul]
    exact hzero ▸ roundsTo_zero_iff.mpr rfl
  · exact (shortest_coarsest h hfinite).1

/-! ## Powers of ten -/

theorem roundsTo_magnitude {rank : Nat} (hfinite : rank < infinityRank) :
    RoundsTo (magnitude rank) rank := by
  have hbelow : magnitude rank < midpoint rank := by
    have := magnitude_strictMono (Nat.lt_succ_self rank)
    rw [midpoint]
    linarith
  have habove : ∀ p, rank = p + 1 → midpoint p < magnitude rank := by
    rintro p rfl
    have := magnitude_strictMono (Nat.lt_succ_self p)
    rw [midpoint]
    linarith
  exact ⟨hfinite.le, fun _ => hbelow.le, fun _ heq => absurd heq hbelow.ne,
    fun p hp => (habove p hp).le, fun p hp heq => absurd heq (habove p hp).ne⟩

section
variable {rank : Nat} (hfinite : rank < infinityRank)
include hfinite

/-- A bound that is the shortest decimal of a rank and not above its magnitude is not crossed by
writing a magnitude as its shortest decimal. -/
theorem le_shortest_iff {bound : Nat} (hbound : bound < infinityRank)
    (hle : (shortest bound).value ≤ magnitude bound) :
    (shortest bound).value ≤ (shortest rank).value ↔ (shortest bound).value ≤ magnitude rank := by
  have hround := roundsTo_shortest hbound
  rcases Nat.lt_trichotomy rank bound with hlt | rfl | hgt
  · -- What rounds to a lower rank is below the bound.
    have hlow : ∀ {q : ℚ}, RoundsTo q rank → ¬(shortest bound).value ≤ q := fun hq hno =>
      absurd (hround.le_of_le hq hno) (Nat.not_le_of_lt hlt)
    exact iff_of_false (hlow (roundsTo_shortest hfinite)) (hlow (roundsTo_magnitude hfinite))
  · exact iff_of_true le_rfl hle
  · have hhigh : ∀ {q : ℚ}, RoundsTo q rank → (shortest bound).value ≤ q := fun hq =>
      le_of_not_ge fun hno => absurd (hq.le_of_le hround hno) (Nat.not_le_of_lt hgt)
    exact iff_of_true (hhigh (roundsTo_shortest hfinite)) (hhigh (roundsTo_magnitude hfinite))

theorem ten_zpow_le_shortest_iff {bound power : Nat} {n : ℤ} (hbound : bound < infinityRank)
    (hshortest : shortest bound = ⟨1, n⟩) (hn : n = power - (Reach.ofRank bound).places)
    (hle : 1 * 10 ^ power ≤ (Reach.ofRank bound).value) :
    (10 ^ n : ℚ) ≤ (shortest rank).value ↔ 10 ^ n ≤ magnitude rank := by
  have hvalue : (shortest bound).value = 10 ^ n := by
    rw [hshortest, Decimal.value, Nat.cast_one, one_mul]
  have hmagnitude : (shortest bound).value ≤ magnitude bound := by
    rw [hshortest, Decimal.value, hn, ← mul_pow_div_pow, ← value_div, div_le_div_pow]
    exact hle
  rw [← hvalue]
  exact le_shortest_iff hfinite hbound hmagnitude

/-- The value nearest to 10^-4 is a little above it. -/
theorem plainFrom_le_shortest_iff :
    (10 ^ (-4 : ℤ) : ℚ) ≤ (shortest rank).value ↔ 10 ^ (-4 : ℤ) ≤ magnitude rank :=
  @ten_zpow_le_shortest_iff rank hfinite 0x3F1A36E2EB1C432D 64 (-4) (by decide) (by decide +kernel)
    (by decide +kernel) (by decide +kernel)

/-- The value nearest to 10^16 is 10^16. -/
theorem plainBelow_le_shortest_iff :
    (10 ^ (16 : ℤ) : ℚ) ≤ (shortest rank).value ↔ 10 ^ (16 : ℤ) ≤ magnitude rank :=
  @ten_zpow_le_shortest_iff rank hfinite 0x4341C37937E08000 17 16 (by decide) (by decide +kernel)
    (by decide +kernel) (by decide +kernel)

end

end Binary64

theorem Decimal.value_eq_zero_iff (d : Decimal) : d.value = 0 ↔ d.digits = 0 := by
  have hpow : (10 : ℚ) ^ d.exponent ≠ 0 := zpow_ne_zero _ (by norm_num)
  rw [value, mul_eq_zero_iff_right hpow, Nat.cast_eq_zero]

theorem pow_le_of_length_toDigits {n l : Nat} (hn : n ≠ 0) (h : (Nat.toDigits 10 n).length = l + 1) :
    10 ^ l ≤ n := by
  by_contra hlt
  cases l with
  | zero => omega
  | succ l =>
    have hlength := (Nat.length_toDigits_le_iff (by omega) (Nat.succ_pos l)).mpr (Nat.lt_of_not_le hlt)
    omega

/-- A decimal is at least a power of ten if its leading digit stands at that power or above it. -/
theorem Decimal.ten_zpow_le_value_iff {d : Decimal} (hd : d.digits ≠ 0) (n : ℤ) :
    (10 ^ n : ℚ) ≤ d.value ↔ n ≤ d.exponent + (Nat.toDigits 10 d.digits).length - 1 := by
  have hten : (0 : ℚ) < 10 := by norm_num
  have hpos : 0 < (10 : ℚ) ^ d.exponent := zpow_pos hten _
  obtain ⟨l, hl⟩ := Nat.exists_eq_succ_of_ne_zero (@Nat.length_toDigits_pos 10 d.digits).ne'
  have hlow : (10 ^ l : ℚ) ≤ d.digits := by exact_mod_cast pow_le_of_length_toDigits hd hl
  have hhigh : (d.digits : ℚ) < 10 ^ (l + 1) := by
    exact_mod_cast (Nat.length_toDigits_le_iff (by omega) (Nat.succ_pos l)).mp hl.le
  rw [hl]
  constructor
  · intro hle
    by_contra hlt
    have hless : d.value < 10 ^ n := by
      calc
        d.value < 10 ^ (l + 1) * 10 ^ d.exponent := mul_lt_mul_of_pos_right hhigh hpos
        _ = 10 ^ (((l + 1 : Nat) : ℤ) + d.exponent) := by
          rw [zpow_add₀ hten.ne', zpow_natCast]
        _ ≤ 10 ^ n := zpow_le_zpow_right₀ (by norm_num) (by omega)
    exact absurd hle (not_le_of_gt hless)
  · intro hle
    calc
      (10 ^ n : ℚ) ≤ 10 ^ ((l : ℤ) + d.exponent) := zpow_le_zpow_right₀ (by norm_num) (by omega)
      _ = 10 ^ l * 10 ^ d.exponent := by rw [zpow_add₀ hten.ne', zpow_natCast]
      _ ≤ d.value := mul_le_mul_of_nonneg_right hlow hpos.le

end LoxFront
