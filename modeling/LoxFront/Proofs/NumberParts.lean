import LoxFront.Proofs.NumberTokens
import Mathlib.Data.List.DropRight

namespace LoxFront

/-- The digits before the point of a number's text, those behind it, and what stands for the exponent.
Either run of digits may be empty. -/
structure NumberParts where
  whole : List Char
  fraction : List Char
  tail : List Char
  exponent : ℤ
  isDigit_whole : ∀ c ∈ whole, c.isDigit = true
  isDigit_fraction : ∀ c ∈ fraction, c.isDigit = true
  ne_nil : whole ++ fraction ≠ []
  readTail?_eq : Decimal.readTail? tail = some exponent

namespace NumberParts

def digits (p : NumberParts) : List Char :=
  p.whole ++ p.fraction

def decimal (p : NumberParts) : Decimal :=
  ⟨Nat.ofDigitChars 10 p.digits 0, p.exponent - p.fraction.length⟩

/-- A text is made of parts. Without a point there are no digits behind it. -/
def Make (p : NumberParts) (cs : List Char) : Prop :=
  cs = p.whole ++ '.' :: (p.fraction ++ p.tail) ∨ (cs = p.whole ++ p.tail ∧ p.fraction = [])

theorem isDigit_of_mem (p : NumberParts) : ∀ c ∈ p.digits, c.isDigit = true := fun c hc =>
  (List.mem_append.mp hc).elim (p.isDigit_whole c) (p.isDigit_fraction c)

end NumberParts

def NoDigitAhead (cs : List Char) : Prop :=
  ∀ c ∈ cs.head?, c.isDigit = false

theorem takeWhile_digits {ds rest : List Char} (hds : ∀ c ∈ ds, c.isDigit = true)
    (hrest : NoDigitAhead rest) : (ds ++ rest).takeWhile Char.isDigit = ds := by
  rw [List.takeWhile_append_of_pos hds]
  cases rest with
  | nil => exact List.append_nil _
  | cons c r =>
    rw [List.takeWhile_cons_of_neg (Bool.not_eq_true _ ▸ hrest c rfl), List.append_nil]

theorem dropWhile_digits {ds rest : List Char} (hds : ∀ c ∈ ds, c.isDigit = true)
    (hrest : NoDigitAhead rest) : (ds ++ rest).dropWhile Char.isDigit = rest := by
  rw [List.dropWhile_append_of_pos hds]
  cases rest with
  | nil => rfl
  | cons c r => exact List.dropWhile_cons_of_neg (Bool.not_eq_true _ ▸ hrest c rfl)

theorem mark_of_readTail? {tail : List Char} {exponent : ℤ}
    (h : Decimal.readTail? tail = some exponent) : ∀ c ∈ tail.head?, c = 'e' ∨ c = 'E' := by
  intro c hc
  unfold Decimal.readTail? at h
  split at h
  · cases hc
  · next d r =>
    obtain rfl : d = c := Option.some.inj hc
    split at h
    · assumption
    · cases h

theorem noDigitAhead_of_readTail? {tail : List Char} {exponent : ℤ}
    (h : Decimal.readTail? tail = some exponent) : NoDigitAhead tail := by
  intro c hc
  rcases mark_of_readTail? h c hc with rfl | rfl <;> rfl

theorem isEmpty_and_isEmpty {xs ys : List Char} :
    (xs.isEmpty && ys.isEmpty) = true ↔ xs ++ ys = [] := by
  rw [Bool.and_eq_true, List.isEmpty_iff, List.isEmpty_iff, List.append_eq_nil_iff]

theorem NumberParts.Make.read?_eq {p : NumberParts} {cs : List Char} (h : p.Make cs) :
    Decimal.read? cs = some p.decimal := by
  have htail := noDigitAhead_of_readTail? p.readTail?_eq
  have hsome := mt isEmpty_and_isEmpty.mp p.ne_nil
  unfold Decimal.read?
  rcases h with rfl | ⟨rfl, hf⟩
  · have hpoint : NoDigitAhead ('.' :: (p.fraction ++ p.tail)) := by
      rintro c ⟨⟩
      rfl
    simp only [takeWhile_digits p.isDigit_whole hpoint, dropWhile_digits p.isDigit_whole hpoint,
      takeWhile_digits p.isDigit_fraction htail, dropWhile_digits p.isDigit_fraction htail,
      if_neg hsome, p.readTail?_eq, Option.map_some]
    rfl
  · rw [hf] at hsome
    simp only [takeWhile_digits p.isDigit_whole htail, dropWhile_digits p.isDigit_whole htail]
    split
    · next htext =>
      rcases mark_of_readTail? p.readTail?_eq '.' (by rw [htext]; rfl) with hmark | hmark <;>
        cases hmark
    · simp only [if_neg hsome, p.readTail?_eq, Option.map_some, NumberParts.decimal,
        NumberParts.digits, hf]

theorem exists_parts {whole fraction tail : List Char} {d : Decimal}
    (hw : ∀ c ∈ whole, c.isDigit = true) (hf : ∀ c ∈ fraction, c.isDigit = true)
    (h : (if whole.isEmpty && fraction.isEmpty then none else
      (Decimal.readTail? tail).map fun exponent =>
        (⟨Nat.ofDigitChars 10 (whole ++ fraction) 0, exponent - fraction.length⟩ : Decimal)) = some d) :
    ∃ p : NumberParts, p.whole = whole ∧ p.fraction = fraction ∧ p.tail = tail ∧ p.decimal = d := by
  split at h
  · cases h
  · next hsome =>
    obtain ⟨exponent, ht, hd⟩ := Option.map_eq_some_iff.mp h
    have hne := mt isEmpty_and_isEmpty.mpr hsome
    exact ⟨⟨whole, fraction, tail, exponent, hw, hf, hne, ht⟩, rfl, rfl, rfl, hd⟩

theorem exists_make {cs : List Char} {d : Decimal} (h : Decimal.read? cs = some d) :
    ∃ p : NumberParts, p.Make cs ∧ p.decimal = d := by
  have hw : ∀ c ∈ cs.takeWhile Char.isDigit, c.isDigit = true := fun c => List.mem_takeWhile_imp
  have hcs : cs.takeWhile Char.isDigit ++ cs.dropWhile Char.isDigit = cs :=
    List.takeWhile_append_dropWhile
  unfold Decimal.read? at h
  simp only at h
  split at h
  · next r hr =>
    obtain ⟨p, hwhole, hfraction, htail, hd⟩ := exists_parts hw (fun c => List.mem_takeWhile_imp) h
    refine ⟨p, .inl ?_, hd⟩
    rw [hwhole, hfraction, htail, List.takeWhile_append_dropWhile, ← hr, hcs]
  · obtain ⟨p, hwhole, hfraction, htail, hd⟩ := exists_parts hw (by simp) h
    refine ⟨p, .inr ⟨?_, hfraction⟩, hd⟩
    rw [hwhole, htail, hcs]

/-- A text is read as a decimal if it is made of parts that spell the decimal, and only then. -/
theorem read?_eq_some_iff {cs : List Char} {d : Decimal} :
    Decimal.read? cs = some d ↔ ∃ p : NumberParts, p.Make cs ∧ p.decimal = d := by
  constructor
  · exact exists_make
  · rintro ⟨p, hp, rfl⟩
    exact hp.read?_eq

def trimZeros (ds : List Char) : List Char :=
  (ds.dropWhile (· == '0')).rdropWhile (· == '0')

/-- The digits of a number's text that count: those before the exponent, from the first to the last one
that is no zero. -/
def significant (cs : List Char) : List Char :=
  trimZeros ((cs.takeWhile fun c => c != 'e' && c != 'E').filter Char.isDigit)

theorem exists_eq_replicate {ds : List Char} (h : ∀ c ∈ ds, (c == '0') = true) :
    ∃ n, ds = List.replicate n '0' :=
  ⟨ds.length, List.eq_replicate_of_mem fun c hc => beq_iff_eq.mp (h c hc)⟩

theorem zeros_replicate (n : Nat) : ∀ c ∈ List.replicate n '0', (c == '0') = true := fun _ hc =>
  beq_iff_eq.mpr (List.eq_of_mem_replicate hc)

theorem exists_eq_trimZeros (ds : List Char) :
    ∃ a b, ds = List.replicate a '0' ++ trimZeros ds ++ List.replicate b '0' := by
  obtain ⟨a, ha⟩ := @exists_eq_replicate (ds.takeWhile (· == '0')) fun c =>
    List.mem_takeWhile_imp
  obtain ⟨b, hb⟩ := @exists_eq_replicate ((ds.dropWhile (· == '0')).rtakeWhile (· == '0'))
    fun c => List.mem_rtakeWhile_imp
  refine ⟨a, b, ?_⟩
  rw [← ha, ← hb, List.append_assoc, trimZeros, List.rdropWhile_append_rtakeWhile,
    List.takeWhile_append_dropWhile]

theorem length_trimZeros_le (a b : Nat) (ds : List Char) :
    (trimZeros (List.replicate a '0' ++ ds ++ List.replicate b '0')).length ≤ ds.length := by
  unfold trimZeros
  rw [List.append_assoc, List.dropWhile_append_of_pos (zeros_replicate a), List.dropWhile_append]
  split
  · rw [List.dropWhile_eq_nil_iff.mpr (zeros_replicate b)]
    exact Nat.zero_le _
  · rw [List.rdropWhile, List.reverse_append, List.reverse_replicate,
      List.dropWhile_append_of_pos (zeros_replicate b), List.length_reverse]
    calc
      ((ds.dropWhile (· == '0')).reverse.dropWhile (· == '0')).length
        ≤ (ds.dropWhile (· == '0')).reverse.length := (List.dropWhile_sublist _).length_le
      _ = (ds.dropWhile (· == '0')).length := List.length_reverse
      _ ≤ ds.length := (List.dropWhile_sublist _).length_le

theorem ofDigitChars_zeros (n : Nat) : Nat.ofDigitChars 10 (List.replicate n '0') 0 = 0 :=
  Nat.ofDigitChars_replicate_zero.trans (Nat.mul_zero _)

theorem ofDigitChars_pad (a b : Nat) (ds : List Char) :
    Nat.ofDigitChars 10 (List.replicate a '0' ++ ds ++ List.replicate b '0') 0 =
      Nat.ofDigitChars 10 ds 0 * 10 ^ b := by
  rw [ofDigitChars_append, ofDigitChars_append, ofDigitChars_zeros, ofDigitChars_zeros,
    List.length_replicate, Nat.mul_zero, Nat.zero_add, Nat.add_zero, Nat.mul_comm]

theorem ofDigitChars_lt {ds : List Char} (h : ∀ c ∈ ds, c.isDigit = true) :
    Nat.ofDigitChars 10 ds 0 < 10 ^ ds.length := by
  induction ds with
  | nil => exact Nat.one_pos
  | cons d ds ih =>
    obtain ⟨hd, hds⟩ := List.forall_mem_cons.mp h
    have hone : Nat.ofDigitChars 10 [d] 0 < 10 := by
      have hle : d.toNat ≤ ('9').toNat := of_decide_eq_true (Bool.and_eq_true_iff.mp hd).2
      show 10 * 0 + (d.toNat - 48) < 10
      have hnine : ('9').toNat = 57 := rfl
      omega
    have hrest := ih hds
    have hcons : Nat.ofDigitChars 10 (d :: ds) 0 =
        10 ^ ds.length * Nat.ofDigitChars 10 [d] 0 + Nat.ofDigitChars 10 ds 0 :=
      ofDigitChars_append [d] ds
    rw [hcons, List.length_cons, pow_succ]
    have := Nat.mul_le_mul_left (10 ^ ds.length) (show Nat.ofDigitChars 10 [d] 0 + 1 ≤ 10 by omega)
    rw [Nat.mul_add, Nat.mul_one] at this
    omega

theorem takeWhile_before_tail {before tail : List Char} {exponent : ℤ}
    (ht : Decimal.readTail? tail = some exponent) (hb : ∀ c ∈ before, c.isDigit = true ∨ c = '.') :
    (before ++ tail).takeWhile (fun c => c != 'e' && c != 'E') = before := by
  have hpass : ∀ c ∈ before, (c != 'e' && c != 'E') = true := by
    intro c hc
    rw [Bool.and_eq_true, bne_iff_ne, bne_iff_ne]
    rcases hb c hc with hd | rfl
    · constructor <;> (rintro rfl; cases hd)
    · decide
  rw [List.takeWhile_append_of_pos hpass]
  cases tail with
  | nil => exact List.append_nil _
  | cons c r =>
    rw [List.takeWhile_cons_of_neg, List.append_nil]
    rcases mark_of_readTail? ht c rfl with rfl | rfl <;> decide

namespace NumberParts
variable {p : NumberParts} {cs : List Char}

theorem Make.significant_eq (h : p.Make cs) : significant cs = trimZeros p.digits := by
  have hdigits := List.filter_eq_self.mpr p.isDigit_of_mem
  unfold significant
  rcases h with rfl | ⟨rfl, hf⟩
  · have hbefore : ∀ c ∈ p.whole ++ '.' :: p.fraction, c.isDigit = true ∨ c = '.' := by
      intro c hc
      rcases List.mem_append.mp hc with hw | hf
      · exact .inl (p.isDigit_whole c hw)
      · exact (List.mem_cons.mp hf).symm.imp_left (p.isDigit_fraction c)
    have hpoint : ¬('.').isDigit = true := by decide
    rw [← List.cons_append, ← List.append_assoc, takeWhile_before_tail p.readTail?_eq hbefore,
      List.filter_append, List.filter_cons_of_neg hpoint, ← List.filter_append]
    exact congrArg trimZeros hdigits
  · have hwhole : p.digits = p.whole := by rw [digits, hf, List.append_nil]
    rw [takeWhile_before_tail p.readTail?_eq fun c hc => .inl (p.isDigit_whole c hc), ← hwhole,
      hdigits]

/-- What a text spells has no more digits than count in the text, up to a power of ten. -/
theorem Make.exists_value_eq (h : p.Make cs) :
    ∃ (m : Nat) (e : ℤ), m < 10 ^ (significant cs).length ∧ p.decimal.value = m * 10 ^ e := by
  obtain ⟨a, b, hzeros⟩ := exists_eq_trimZeros p.digits
  have hdigits : ∀ c ∈ trimZeros p.digits, c.isDigit = true := by
    intro c hc
    apply p.isDigit_of_mem
    rw [hzeros]
    exact List.mem_append_left _ (List.mem_append_right _ hc)
  have hvalue : Nat.ofDigitChars 10 p.digits 0 = Nat.ofDigitChars 10 (trimZeros p.digits) 0 * 10 ^ b :=
    (congrArg _ hzeros).trans (ofDigitChars_pad a b _)
  refine ⟨Nat.ofDigitChars 10 (trimZeros p.digits) 0, b + (p.exponent - p.fraction.length), ?_, ?_⟩
  · rw [h.significant_eq]
    exact ofDigitChars_lt hdigits
  · rw [Decimal.value, decimal, hvalue, zpow_add₀ (by norm_num), zpow_natCast]
    push_cast
    ring

end NumberParts

end LoxFront
