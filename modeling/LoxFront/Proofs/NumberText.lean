import LoxFront.Proofs.NumberParts
import LoxFront.Proofs.Numerals
import LoxFront.Proofs.ShortestDigits
import LoxFront.Token.Basic

/-! In both notations the digits that are written are those of the shortest decimal, with zeros
around them at most, so the text is read back as that decimal. -/
namespace LoxFront
open Lexical

/-! ## Notations -/

def IsPlain (cs : List Char) : Prop :=
  ∃ ds es, IsDigits ds ∧ IsDigits es ∧ cs = ds ++ '.' :: es

/-- One digit other than zero, with more digits behind a point if there are any, and an exponent. -/
def IsScientific (cs : List Char) : Prop :=
  ∃ d fraction, ∃ power : ℤ, d.isDigit = true ∧ d ≠ '0' ∧
    (fraction = [] ∨ ∃ es, IsDigits es ∧ fraction = '.' :: es) ∧
    cs = d :: fraction ++ 'e' :: (toString power).toList

namespace NumberParts

/-- The digits of the parts are those of a decimal, with zeros around them at most, and some of them are
before the point. -/
structure Pad (p : NumberParts) (d : Decimal) (a b : Nat) : Prop where
  whole_ne_nil : p.whole ≠ []
  digits_eq : p.digits = List.replicate a '0' ++ Nat.toDigits 10 d.digits ++ List.replicate b '0'
  exponent_eq : p.exponent - p.fraction.length = d.exponent - b

variable {p : NumberParts} {d : Decimal} {a b : Nat}

theorem Pad.value_eq (h : p.Pad d a b) : p.decimal.value = d.value := by
  have hdigits : Nat.ofDigitChars 10 p.digits 0 = d.digits * 10 ^ b := by
    rw [h.digits_eq, ofDigitChars_pad, Nat.ofDigitChars_ten_toDigits]
  have hten : (10 : ℚ) ≠ 0 := by norm_num
  rw [Decimal.value, decimal, hdigits, h.exponent_eq, zpow_sub₀ hten, zpow_natCast, Decimal.value]
  push_cast
  rw [mul_assoc, mul_div_cancel₀ _ (pow_ne_zero b hten)]

section
variable {cs : List Char} (h : p.Pad d a b) (hmake : p.Make cs)
include h hmake

theorem Pad.exists_cons : ∃ c r, cs = c :: r ∧ c.isDigit = true := by
  obtain ⟨c, w, hcons⟩ := List.exists_cons_of_ne_nil h.whole_ne_nil
  have hc : c.isDigit = true := p.isDigit_whole c (hcons ▸ List.mem_cons_self)
  unfold Make at hmake
  rw [hcons] at hmake
  rcases hmake with rfl | ⟨rfl, -⟩
  · exact ⟨c, _, rfl, hc⟩
  · exact ⟨c, _, rfl, hc⟩

theorem Pad.length_significant_le : (significant cs).length ≤ (Nat.toDigits 10 d.digits).length := by
  rw [hmake.significant_eq, h.digits_eq]
  exact length_trimZeros_le a b _

end

end NumberParts

theorem isDigits_toDigits (n : Nat) : IsDigits (Nat.toDigits 10 n) :=
  ⟨Nat.toDigits_ne_nil, fun _ hc => Nat.isDigit_of_mem_toDigits (by omega) (by omega) hc⟩

theorem isDigits_pad (a b : Nat) {ds : List Char} (h : IsDigits ds) :
    IsDigits (List.replicate a '0' ++ ds ++ List.replicate b '0') := by
  have hzero : ∀ n, ∀ c ∈ List.replicate n '0', c.isDigit = true := by
    intro n c hc
    rw [List.eq_of_mem_replicate hc]
    rfl
  constructor
  · exact List.append_ne_nil_of_left_ne_nil (List.append_ne_nil_of_right_ne_nil _ h.1) _
  · intro c hc
    rcases List.mem_append.mp hc with hfront | hback
    · exact (List.mem_append.mp hfront).elim (hzero a c) (h.2 c)
    · exact hzero b c hback

/-! ## Plain notation -/

theorem Layout.exists_plain_eq {digits : List Char} (h : IsDigits digits) (e : ℤ) :
    ∃ ds es a b, IsDigits ds ∧ IsDigits es ∧ Layout.plain digits e = ds ++ '.' :: es ∧
      ds ++ es = List.replicate a '0' ++ digits ++ List.replicate b '0' ∧
      (es.length : ℤ) = b - e := by
  have hone : IsDigits ['0'] := ⟨List.cons_ne_nil _ _, by simp⟩
  unfold plain
  split
  · next he =>
    refine ⟨_, ['0'], 0, e.toNat + 1, isDigits_pad 0 e.toNat h, hone, rfl, ?_, ?_⟩
    · rw [List.append_assoc _ _ ['0'], ← List.replicate_succ']
    · rw [List.length_singleton]
      omega
  · next he =>
    simp only
    split
    · next hlt =>
      -- The point is between two digits.
      refine ⟨_, _, 0, 0, ⟨?_, fun c hc => h.2 c (List.mem_of_mem_take hc)⟩,
        ⟨?_, fun c hc => h.2 c (List.mem_of_mem_drop hc)⟩, rfl, ?_, ?_⟩
      · rw [← List.length_pos_iff, List.length_take]
        omega
      · rw [← List.length_pos_iff, List.length_drop]
        omega
      · rw [List.take_append_drop]
        exact (List.append_nil _).symm
      · rw [List.length_drop]
        omega
    · next hge =>
      have hpad := isDigits_pad ((-e).toNat - digits.length) 0 h
      rw [List.replicate_zero, List.append_nil] at hpad
      refine ⟨['0'], _, (-e).toNat - digits.length + 1, 0, hone, hpad, rfl, ?_, ?_⟩
      · rw [List.replicate_zero, List.append_nil]
        rfl
      · rw [List.length_append, List.length_replicate]
        omega

theorem exists_pad_plain (d : Decimal) : ∃ p : NumberParts, ∃ a b,
    p.Make (Layout.plain (Nat.toDigits 10 d.digits) d.exponent) ∧ p.Pad d a b := by
  obtain ⟨ds, es, a, b, hds, hes, heq, hdigits, hlength⟩ :=
    Layout.exists_plain_eq (isDigits_toDigits d.digits) d.exponent
  have hne : ds ++ es ≠ [] := List.append_ne_nil_of_left_ne_nil hds.1 _
  refine ⟨⟨ds, es, [], 0, hds.2, hes.2, hne, rfl⟩, a, b, .inl ?_, hds.1, hdigits, ?_⟩
  · rw [heq, List.append_nil]
  · show 0 - (es.length : ℤ) = d.exponent - b
    omega

theorem isPlain_plain {digits : List Char} (h : IsDigits digits) (e : ℤ) :
    IsPlain (Layout.plain digits e) := by
  obtain ⟨ds, es, _, _, hds, hes, heq, -⟩ := Layout.exists_plain_eq h e
  exact ⟨ds, es, hds, hes, heq⟩

/-! ## Scientific notation -/

theorem readExponent?_toString (z : ℤ) : Decimal.readExponent? (toString z).toList = some z := by
  have hrun : ∀ n, ((Nat.toDigits 10 n).isEmpty || !(Nat.toDigits 10 n).all Char.isDigit) = false := by
    intro n
    rw [Bool.or_eq_false_iff, Bool.not_eq_false', List.isEmpty_eq_false_iff, List.all_eq_true]
    exact isDigits_toDigits n
  cases z with
  | ofNat n =>
    have htext : (toString (Int.ofNat n)).toList = Nat.toDigits 10 n := toList_toString n
    obtain ⟨d, r, hcons⟩ := List.exists_cons_of_ne_nil (isDigits_toDigits n).1
    have hd : d.isDigit = true := (isDigits_toDigits n).2 d (hcons ▸ List.mem_cons_self)
    have hsome := hrun n
    have hn : Nat.ofDigitChars 10 (Nat.toDigits 10 n) 0 = n := Nat.ofDigitChars_ten_toDigits
    rw [htext, hcons]
    rw [hcons] at hsome hn
    unfold Decimal.readExponent?
    simp only
    split
    · next heq =>
      rw [(List.cons.inj heq).1] at hd
      cases hd
    · next heq =>
      rw [(List.cons.inj heq).1] at hd
      cases hd
    · simp only [hsome, hn]
      rfl
  | negSucc n =>
    have htext : (toString (Int.negSucc n)).toList = '-' :: Nat.toDigits 10 (n + 1) := by
      have hsign : (toString (Int.negSucc n)).toList = ("-" ++ toString (n + 1)).toList := rfl
      rw [hsign, String.toList_append, toList_toString]
      rfl
    rw [htext]
    unfold Decimal.readExponent?
    simp only [hrun, Nat.ofDigitChars_ten_toDigits]
    rfl

theorem readTail?_toString (z : ℤ) : Decimal.readTail? ('e' :: (toString z).toList) = some z :=
  readExponent?_toString z

theorem head_toDigits_ne_zero {n : Nat} (hn : n ≠ 0) {d : Char} {r : List Char}
    (h : Nat.toDigits 10 n = d :: r) : d ≠ '0' := by
  rintro rfl
  have hdigits := (isDigits_toDigits n).2
  rw [h] at hdigits
  have hlow : 10 ^ r.length ≤ n := pow_le_of_length_toDigits hn (by rw [h, List.length_cons])
  have hhigh : Nat.ofDigitChars 10 r 0 < 10 ^ r.length := ofDigitChars_lt fun c hc =>
    hdigits c (List.mem_cons_of_mem _ hc)
  have hvalue : n = Nat.ofDigitChars 10 r 0 := by
    calc
      n = Nat.ofDigitChars 10 (Nat.toDigits 10 n) 0 := Nat.ofDigitChars_ten_toDigits.symm
      _ = Nat.ofDigitChars 10 r 0 := by rw [h]; rfl
  omega

theorem exists_pad_scientific (d : Decimal) : ∃ p : NumberParts,
    p.Make (Layout.scientific (Nat.toDigits 10 d.digits)
      (d.exponent + (Nat.toDigits 10 d.digits).length - 1)) ∧ p.Pad d 0 0 := by
  have hdigits := isDigits_toDigits d.digits
  -- A single digit is written without a point.
  match hd : Nat.toDigits 10 d.digits with
  | [] => exact absurd hd hdigits.1
  | [c] =>
    rw [hd] at hdigits
    refine ⟨⟨[c], [], _, _, hdigits.2, by simp, by simp, readTail?_toString _⟩, .inr ⟨rfl, rfl⟩,
      by simp, ?_, ?_⟩
    · rw [hd]
      rfl
    · simp
  | c :: f :: r =>
    rw [hd] at hdigits
    obtain ⟨hc, hr⟩ := List.forall_mem_cons.mp hdigits.2
    refine ⟨⟨[c], f :: r, _, _, List.forall_mem_singleton.mpr hc, hr, by simp, readTail?_toString _⟩,
      .inl rfl, by simp, ?_, ?_⟩
    · rw [hd, List.replicate_zero, List.append_nil]
      rfl
    · simp
      omega

theorem isScientific_scientific {n : Nat} (hn : n ≠ 0) (power : ℤ) :
    IsScientific (Layout.scientific (Nat.toDigits 10 n) power) := by
  have hdigits := isDigits_toDigits n
  match hd : Nat.toDigits 10 n with
  | [] => exact absurd hd hdigits.1
  | [c] =>
    rw [hd] at hdigits
    exact ⟨c, [], power, hdigits.2 c List.mem_cons_self, head_toDigits_ne_zero hn hd, .inl rfl, rfl⟩
  | c :: f :: r =>
    rw [hd] at hdigits
    have hrest : IsDigits (f :: r) :=
      ⟨List.cons_ne_nil _ _, fun x hx => hdigits.2 x (List.mem_cons_of_mem _ hx)⟩
    exact ⟨c, '.' :: f :: r, power, hdigits.2 c List.mem_cons_self, head_toDigits_ne_zero hn hd,
      .inr ⟨_, hrest, rfl⟩, rfl⟩

theorem Layout.exists_pad (f : Layout) (d : Decimal) :
    ∃ p : NumberParts, ∃ a b, p.Make (f.decimal d) ∧ p.Pad d a b := by
  unfold decimal
  simp only
  split
  · exact exists_pad_plain d
  · obtain ⟨p, hmake, hpad⟩ := exists_pad_scientific d
    exact ⟨p, 0, 0, hmake, hpad⟩

def WrittenPlainly (q : ℚ) : Prop :=
  q = 0 ∨ (10 ^ (-4 : ℤ) ≤ q ∧ q < 10 ^ (16 : ℤ))

theorem writtenPlainly_value_iff (d : Decimal) : WrittenPlainly d.value ↔
    d.digits = 0 ∨ (Literal.layout.plainFrom ≤ d.exponent + (Nat.toDigits 10 d.digits).length - 1 ∧
      d.exponent + (Nat.toDigits 10 d.digits).length - 1 < Literal.layout.plainBelow) := by
  unfold WrittenPlainly
  rw [d.value_eq_zero_iff]
  by_cases hd : d.digits = 0
  · exact iff_of_true (.inl hd) (.inl hd)
  · rw [← not_le, d.ten_zpow_le_value_iff hd, d.ten_zpow_le_value_iff hd, not_le]
    rfl

theorem form_decimal (d : Decimal) :
    (WrittenPlainly d.value → IsPlain (Literal.layout.decimal d)) ∧
      (¬WrittenPlainly d.value → IsScientific (Literal.layout.decimal d)) := by
  rw [writtenPlainly_value_iff]
  unfold Layout.decimal
  simp only
  constructor
  · intro h
    rw [if_pos h]
    exact isPlain_plain (isDigits_toDigits _) _
  · intro h
    rw [if_neg h]
    exact isScientific_scientific (fun hzero => h (.inl hzero)) _

/-! ## Signs -/

namespace Binary64

def sign (x : Binary64) : List Char :=
  if x.isNegative then ['-'] else []

theorem ofRank_isNegative_rank (x : Binary64) : ofRank x.isNegative x.rank = x := by
  have hlt : x.bits.toNat < 2 * signBit := x.bits.toNat_lt
  have hbits : (if x.isNegative then signBit + x.rank else x.rank) = x.bits.toNat := by
    rw [show signBit = 9223372036854775808 from rfl] at hlt
    simp only [isNegative, rank, decide_eq_true_iff, show signBit = 9223372036854775808 from rfl]
    split <;> omega
  rw [ofRank, hbits, UInt64.ofNat_toNat]

theorem rank_ofRank_of_lt {r : Nat} (h : r < signBit) (negative : Bool) :
    (ofRank negative r).rank = r := by
  have hlt : (if negative then signBit + r else r) < 2 * signBit := by
    split <;> omega
  have hbits : (ofRank negative r).bits.toNat = if negative then signBit + r else r :=
    UInt64.toNat_ofNat_of_lt' hlt
  rw [rank, hbits]
  cases negative with
  | true => exact (Nat.add_mod_left _ _).trans (Nat.mod_eq_of_lt h)
  | false => exact Nat.mod_eq_of_lt h

theorem significant_sign_append (x : Binary64) (cs : List Char) :
    significant (x.sign ++ cs) = significant cs := by
  unfold sign
  split <;> rfl

theorem ofText?_sign_append {x : Binary64} {text : String} {cs : List Char}
    (htext : text.toList = x.sign ++ cs) (h : ∀ c ∈ cs.head?, c ≠ '-' ∧ c ≠ '+') :
    ofText? text = (readRank? cs).map (ofRank x.isNegative) := by
  unfold ofText?
  unfold sign at htext
  rw [htext]
  cases x.isNegative with
  | true => rfl
  | false =>
    simp only [Bool.false_eq_true, if_false, List.nil_append]
    split
    · exact absurd rfl (h '-' rfl).1
    · exact absurd rfl (h '+' rfl).2
    · rfl

theorem readRank?_cases {cs : List Char} {r : Nat} (h : readRank? cs = some r) :
    r = infinityRank ∨ r = nan.rank ∨ ∃ d, Decimal.read? cs = some d ∧ rankOfDecimal d = r := by
  unfold readRank? at h
  simp only at h
  split at h
  · exact .inl (Option.some.inj h).symm
  · split at h
    · exact .inr (.inl (Option.some.inj h).symm)
    · exact .inr (.inr (Option.map_eq_some_iff.mp h))

theorem exists_read?_of_finite {cs : List Char} {x : Binary64} {negative : Bool}
    (h : (readRank? cs).map (ofRank negative) = some x) (hfinite : x.rank < infinityRank) :
    ∃ d, Decimal.read? cs = some d ∧ RoundsTo d.value x.rank := by
  obtain ⟨r, hr, rfl⟩ := Option.map_eq_some_iff.mp h
  rcases readRank?_cases hr with rfl | rfl | ⟨d, hd, rfl⟩
  · rw [rank_ofRank_of_lt (by decide)] at hfinite
    exact absurd hfinite (Nat.lt_irrefl _)
  · rw [rank_ofRank_of_lt (by decide)] at hfinite
    exact absurd hfinite (by decide)
  · have hround := roundsTo_rankOfDecimal d
    have hlt : rankOfDecimal d < signBit := Nat.lt_of_le_of_lt hround.le_infinity (by decide)
    refine ⟨d, hd, ?_⟩
    rw [rank_ofRank_of_lt hlt]
    exact hround

/-- A text that is read as a finite value stands, with no more digits than count in it, for a decimal
that rounds to the value. -/
theorem exists_roundsTo_of_ofText? {text : String} {x : Binary64} (h : ofText? text = some x)
    (hfinite : x.rank < infinityRank) : ∃ (m : Nat) (e : ℤ),
      m < 10 ^ (significant text.toList).length ∧ RoundsTo (m * 10 ^ e) x.rank := by
  obtain ⟨cs, negative, hsignificant, hread⟩ : ∃ cs negative,
      significant text.toList = significant cs ∧
        (readRank? cs).map (ofRank negative) = some x := by
    unfold ofText? at h
    split at h
    · next cs heq => exact ⟨cs, true, by rw [heq]; rfl, h⟩
    · next cs heq => exact ⟨cs, false, by rw [heq]; rfl, h⟩
    · exact ⟨_, false, rfl, h⟩
  obtain ⟨d, hd, hround⟩ := exists_read?_of_finite hread hfinite
  obtain ⟨p, hmake, rfl⟩ := read?_eq_some_iff.mp hd
  obtain ⟨m, e, hm, hvalue⟩ := hmake.exists_value_eq
  exact ⟨m, e, hsignificant ▸ hm, hvalue ▸ hround⟩

/-! ## Writing a value -/

theorem magnitude_eq_zero_iff (rank : Nat) : magnitude rank = 0 ↔ rank = 0 := by
  have hzero : magnitude 0 = 0 := by
    rw [magnitude, show units 0 = 0 from rfl, Nat.cast_zero, zero_mul]
  rw [← hzero]
  exact magnitude_strictMono.injective.eq_iff

theorem value_eq_zero_iff (x : Binary64) : x.value = 0 ↔ x.rank = 0 := by
  rw [← abs_eq_zero, abs_value, magnitude_eq_zero_iff]

section
variable {rank : Nat} (hfinite : rank < infinityRank)
include hfinite

theorem digits_shortest_eq_zero_iff : (shortest rank).digits = 0 ↔ rank = 0 := by
  have hround := roundsTo_shortest hfinite
  rw [← Decimal.value_eq_zero_iff]
  constructor
  · intro hzero
    exact roundsTo_zero_iff.mp (hzero ▸ hround)
  · rintro rfl
    rw [Decimal.value_eq_zero_iff]
    rfl

theorem writtenPlainly_shortest_iff :
    WrittenPlainly (shortest rank).value ↔ WrittenPlainly (magnitude rank) := by
  have hzero : (shortest rank).value = 0 ↔ magnitude rank = 0 := by
    rw [Decimal.value_eq_zero_iff, digits_shortest_eq_zero_iff hfinite, magnitude_eq_zero_iff]
  unfold WrittenPlainly
  rw [hzero, ← not_le, ← not_le, plainFrom_le_shortest_iff hfinite,
    plainBelow_le_shortest_iff hfinite]

theorem readRank?_decimal_shortest (f : Layout) :
    readRank? (f.decimal (shortest rank)) = some rank := by
  obtain ⟨p, a, b, hmake, hpad⟩ := f.exists_pad (shortest rank)
  obtain ⟨c, r, hcons, hc⟩ := hpad.exists_cons hmake
  have hread := hmake.read?_eq
  have hround := roundsTo_rankOfDecimal p.decimal
  -- What is read stands for the shortest decimal, and no decimal rounds to two ranks.
  rw [hpad.value_eq] at hround
  rw [hcons] at hread ⊢
  rw [readRank?_of_isDigit hc, hread, Option.map_some]
  exact congrArg some (hround.unique (roundsTo_shortest hfinite))

/-- What is read as a positive magnitude has no fewer digits that count than its shortest decimal. -/
theorem length_significant_decimal_le (hpos : 0 < rank) (f : Layout) {m k : Nat} {e : ℤ}
    (hm : m < 10 ^ k) (hround : RoundsTo (m * 10 ^ e) rank) :
    (significant (f.decimal (shortest rank))).length ≤ k := by
  obtain ⟨p, a, b, hmake, hpad⟩ := f.exists_pad (shortest rank)
  have hdigits : (shortest rank).digits ≠ 0 := fun hzero =>
    hpos.ne' ((digits_shortest_eq_zero_iff hfinite).mp hzero)
  have hlt := digits_shortest_lt hpos hfinite hm hround
  have hk : 0 < k := by
    refine Nat.pos_of_ne_zero fun hk => hdigits ?_
    rw [hk, pow_zero] at hlt
    exact Nat.lt_one_iff.mp hlt
  exact (hpad.length_significant_le hmake).trans ((Nat.length_toDigits_le_iff (by omega) hk).mpr hlt)

end

def unsigned (f : Layout) (x : Binary64) : List Char :=
  if x.isInfinite then f.infinity.toList else f.decimal (shortest x.rank)

theorem toList_write (f : Layout) {x : Binary64} (h : x.isNaN = false) :
    (f.write x).toList = x.sign ++ x.unsigned f := by
  have hmagnitude : (if x.isInfinite then f.infinity
      else String.ofList (f.decimal (shortest x.rank))).toList = x.unsigned f := by
    unfold unsigned
    split
    · rfl
    · exact String.toList_ofList
  unfold Layout.write sign
  rw [if_neg (by rw [h]; exact Bool.false_ne_true)]
  simp only
  split
  · rw [String.toList_append, hmagnitude]
    rfl
  · exact hmagnitude

section
variable {x : Binary64}

theorem unsigned_of_finite (f : Layout) (h : x.rank < infinityRank) :
    x.unsigned f = f.decimal (shortest x.rank) :=
  if_neg (by rw [isInfinite, beq_iff_eq]; exact Nat.ne_of_lt h)

theorem readRank?_unsigned (h : x.isNaN = false) :
    readRank? (x.unsigned Literal.layout) = some x.rank := by
  have hle : x.rank ≤ infinityRank := Nat.le_of_not_lt (of_decide_eq_false h)
  rcases Nat.lt_or_eq_of_le hle with hlt | heq
  · rw [unsigned_of_finite _ hlt]
    exact readRank?_decimal_shortest hlt _
  · rw [unsigned, if_pos (by rw [isInfinite, beq_iff_eq]; exact heq), heq]
    rfl

theorem head_unsigned (x : Binary64) :
    ∀ c ∈ (x.unsigned Literal.layout).head?, c ≠ '-' ∧ c ≠ '+' := by
  intro c hc
  unfold unsigned at hc
  split at hc
  · obtain rfl : 'i' = c := Option.some.inj hc
    decide
  · obtain ⟨_, _, _, hmake, hpad⟩ := Literal.layout.exists_pad (shortest x.rank)
    obtain ⟨d, r, hcons, hd⟩ := hpad.exists_cons hmake
    rw [hcons] at hc
    obtain rfl : d = c := Option.some.inj hc
    constructor <;> (rintro rfl; cases hd)

theorem ofText?_write (h : x.isNaN = false) :
    ofText? (Literal.layout.write x) = some x := by
  rw [ofText?_sign_append (toList_write _ h) x.head_unsigned, readRank?_unsigned h,
    Option.map_some, ofRank_isNegative_rank]

theorem length_significant_write_le (hfinite : x.rank < infinityRank) (hpos : 0 < x.rank)
    {other : String} (h : ofText? other = some x) :
    (significant (Literal.layout.write x).toList).length ≤ (significant other.toList).length := by
  obtain ⟨m, e, hm, hround⟩ := exists_roundsTo_of_ofText? h hfinite
  have hnan : x.isNaN = false := decide_eq_false (Nat.not_lt_of_gt hfinite)
  rw [toList_write _ hnan, significant_sign_append, unsigned_of_finite _ hfinite]
  exact length_significant_decimal_le hfinite hpos _ hm hround

theorem form_unsigned (hfinite : x.rank < infinityRank) :
    (WrittenPlainly |x.value| → IsPlain (x.unsigned Literal.layout)) ∧
      (¬WrittenPlainly |x.value| → IsScientific (x.unsigned Literal.layout)) := by
  rw [abs_value, ← writtenPlainly_shortest_iff hfinite, unsigned_of_finite _ hfinite]
  exact form_decimal _

end

/-- A shortest text of a value: no text that is read as the value has fewer digits that count. From
10^-4 up to, but not including, 10^16 it is in plain notation. -/
structure WrittenAs (x : Binary64) (text : String) : Prop where
  reads : ofText? text = some x
  fewest : x.isFinite = true → x.value ≠ 0 → ∀ other, ofText? other = some x →
    (significant text.toList).length ≤ (significant other.toList).length
  layout : x.isFinite = true → ∃ cs, text.toList = x.sign ++ cs ∧
    (WrittenPlainly |x.value| → IsPlain cs) ∧ (¬WrittenPlainly |x.value| → IsScientific cs)

theorem writtenAs_write {x : Binary64} (h : x.isNaN = false) :
    x.WrittenAs (Literal.layout.write x) := by
  refine ⟨ofText?_write h, ?_, ?_⟩
  · intro hfinite hvalue other hother
    rw [ne_eq, value_eq_zero_iff] at hvalue
    exact length_significant_write_le (x.isFinite_iff.mp hfinite) (Nat.pos_of_ne_zero hvalue) hother
  · intro hfinite
    exact ⟨_, toList_write _ h, form_unsigned (x.isFinite_iff.mp hfinite)⟩

end Binary64

/-- The text of a number literal is the shortest one of its value, and two literals have the same text
just if they have the same bits. -/
theorem number_render_writtenAs {x y : Binary64} (hx : x.isNaN = false) (hy : y.isNaN = false) :
    x.WrittenAs (Literal.number x).render ∧
      ((Literal.number x).render = (Literal.number y).render ↔ x.bits = y.bits) := by
  have hwritten := Binary64.writtenAs_write hx
  refine ⟨hwritten, ?_, ?_⟩
  · intro htext
    have hread : Binary64.ofText? (Literal.layout.write x) = some y :=
      (congrArg Binary64.ofText? htext).trans (Binary64.ofText?_write hy)
    exact congrArg Binary64.bits (Option.some.inj (hwritten.reads.symm.trans hread))
  · intro hbits
    have heq : x = y := congrArg Binary64.mk hbits
    rw [heq]

/-- One tenth, and the least value above zero. -/
theorem number_render_writtenAs_tenth :
    Binary64.WrittenAs ⟨0x3FB999999999999A⟩ "0.1" ∧
      ("0.1" = "5e-324" ↔ (0x3FB999999999999A : UInt64) = 1) := by
  have htenth : (Literal.number ⟨0x3FB999999999999A⟩).render = "0.1" := by decide +kernel
  have hleast : (Literal.number ⟨1⟩).render = "5e-324" := by decide +kernel
  have h := @number_render_writtenAs ⟨0x3FB999999999999A⟩ ⟨1⟩ rfl rfl
  rwa [htenth, hleast] at h

end LoxFront
