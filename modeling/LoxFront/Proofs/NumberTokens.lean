import LoxFront.Proofs.Contributions
import LoxFront.Proofs.NearestValue

namespace LoxFront
open Lexical

/-- The rational that digits denote, or digits and a fraction. -/
inductive Denotes : List Char → ℚ → Prop where
  | whole {ds : List Char} (hds : IsDigits ds) : Denotes ds (Nat.ofDigitChars 10 ds 0)
  | fraction {ds es : List Char} (hds : IsDigits ds) (hes : IsDigits es) :
      Denotes (ds ++ '.' :: es)
        (Nat.ofDigitChars 10 ds 0 + Nat.ofDigitChars 10 es 0 / 10 ^ es.length)

theorem exists_denotes {w : List Char} (h : Tag.number.Spells w) : ∃ q, Denotes w q := by
  obtain ⟨ds, hds, rfl | ⟨es, hes, rfl⟩⟩ := h
  · exact ⟨_, .whole hds⟩
  · exact ⟨_, .fraction hds hes⟩

theorem Denotes.exists_cons {w : List Char} {q : ℚ} (h : Denotes w q) :
    ∃ d cs, w = d :: cs ∧ d.isDigit = true := by
  cases h with
  | whole hds =>
    obtain ⟨d, cs, rfl⟩ := List.exists_cons_of_ne_nil hds.1
    exact ⟨d, cs, rfl, hds.2 d List.mem_cons_self⟩
  | fraction hds =>
    obtain ⟨d, cs, rfl⟩ := List.exists_cons_of_ne_nil hds.1
    exact ⟨d, _, rfl, hds.2 d List.mem_cons_self⟩

theorem ofDigitChars_append (ds es : List Char) :
    Nat.ofDigitChars 10 (ds ++ es) 0 =
      10 ^ es.length * Nat.ofDigitChars 10 ds 0 + Nat.ofDigitChars 10 es 0 :=
  (Nat.ofDigitChars_append 0).trans Nat.ofDigitChars_eq_ofDigitChars_zero

theorem read?_whole {ds : List Char} (h : IsDigits ds) :
    Decimal.read? ds = some ⟨Nat.ofDigitChars 10 ds 0, 0⟩ := by
  have htake : ds.takeWhile Char.isDigit = ds := List.takeWhile_eq_self_iff.mpr h.2
  have hdrop : ds.dropWhile Char.isDigit = [] := List.dropWhile_eq_nil_iff.mpr h.2
  have hne : ds.isEmpty = false := List.isEmpty_eq_false_iff.mpr h.1
  unfold Decimal.read?
  simp only [htake, hdrop, hne, Bool.false_and, Decimal.readTail?, Option.map_some,
    List.append_nil, List.length_nil]
  rfl

theorem read?_fraction {ds es : List Char} (hds : IsDigits ds) (hes : IsDigits es) :
    Decimal.read? (ds ++ '.' :: es) =
      some ⟨Nat.ofDigitChars 10 (ds ++ es) 0, -(es.length : ℤ)⟩ := by
  have hdot : ('.').isDigit = false := rfl
  have htake : (ds ++ '.' :: es).takeWhile Char.isDigit = ds := by
    rw [List.takeWhile_append_of_pos hds.2, List.takeWhile_cons_of_neg (by decide), List.append_nil]
  have hdrop : (ds ++ '.' :: es).dropWhile Char.isDigit = '.' :: es := by
    rw [List.dropWhile_append_of_pos hds.2, List.dropWhile_cons_of_neg (by decide)]
  have htake' : es.takeWhile Char.isDigit = es := List.takeWhile_eq_self_iff.mpr hes.2
  have hdrop' : es.dropWhile Char.isDigit = [] := List.dropWhile_eq_nil_iff.mpr hes.2
  have hne : ds.isEmpty = false := List.isEmpty_eq_false_iff.mpr hds.1
  unfold Decimal.read?
  simp only [htake, hdrop, htake', hdrop', hne, Bool.false_and, Decimal.readTail?, Option.map_some]
  rw [zero_sub]
  rfl

theorem Denotes.exists_read? {w : List Char} {q : ℚ} (h : Denotes w q) :
    ∃ d, Decimal.read? w = some d ∧ d.value = q := by
  cases h with
  | whole hds =>
    refine ⟨_, read?_whole hds, ?_⟩
    exact mul_one _
  | @fraction ds es hds hes =>
    refine ⟨_, read?_fraction hds hes, ?_⟩
    have hpow : (10 : ℚ) ^ es.length ≠ 0 := pow_ne_zero _ (by norm_num)
    rw [Decimal.value, ofDigitChars_append, zpow_neg, zpow_natCast]
    push_cast
    field_simp

theorem Denotes.unique {w : List Char} {p q : ℚ} (hp : Denotes w p) (hq : Denotes w q) : p = q := by
  obtain ⟨d, hread, rfl⟩ := hp.exists_read?
  obtain ⟨e, hread', rfl⟩ := hq.exists_read?
  rw [Option.some.inj (hread.symm.trans hread')]

theorem toLower_of_isDigit {d : Char} (h : d.isDigit = true) : d.toLower = d := by
  have hle : d.val ≤ ('9').val := of_decide_eq_true (Bool.and_eq_true_iff.mp h).2
  unfold Char.toLower
  apply dif_neg
  rintro ⟨hge, -⟩
  exact absurd (UInt32.le_trans hge hle) (by decide)

theorem readRank?_of_isDigit {d : Char} {cs : List Char} (hd : d.isDigit = true) :
    Binary64.readRank? (d :: cs) = (Decimal.read? (d :: cs)).map Binary64.rankOfDecimal := by
  have hword : ∀ (c : Char) (word : List Char), c.isDigit = false →
      (d :: cs).map Char.toLower ≠ c :: word := by
    intro c word hc heq
    rw [List.map_cons, toLower_of_isDigit hd] at heq
    rw [(List.cons.inj heq).1, hc] at hd
    cases hd
  unfold Binary64.readRank?
  simp only
  rw [if_neg, if_neg]
  · exact hword 'n' _ rfl
  · rintro (heq | heq)
    · exact hword 'i' _ rfl heq
    · exact hword 'i' _ rfl heq

theorem Denotes.readRank?_eq {w : List Char} {q : ℚ} (h : Denotes w q) :
    Binary64.readRank? w = (Decimal.read? w).map Binary64.rankOfDecimal := by
  obtain ⟨d, cs, rfl, hd⟩ := h.exists_cons
  exact readRank?_of_isDigit hd

theorem Denotes.ofText?_eq {text : String} {q : ℚ} (h : Denotes text.toList q) :
    Binary64.ofText? text =
      (Binary64.readRank? text.toList).map (Binary64.ofRank false) := by
  obtain ⟨d, cs, hcons, hd⟩ := h.exists_cons
  unfold Binary64.ofText?
  rw [hcons]
  split
  · next heq =>
    rw [(List.cons.inj heq).1] at hd
    cases hd
  · next heq =>
    rw [(List.cons.inj heq).1] at hd
    cases hd
  · rfl

theorem Denotes.exists_ofText? {text : String} {q : ℚ} (h : Denotes text.toList q) :
    ∃ rank, Binary64.ofText? text = some (Binary64.ofRank false rank) ∧
      Binary64.RoundsTo q rank := by
  obtain ⟨d, hread, hvalue⟩ := h.exists_read?
  refine ⟨Binary64.rankOfDecimal d, ?_, hvalue ▸ Binary64.roundsTo_rankOfDecimal d⟩
  rw [h.ofText?_eq, h.readRank?_eq, hread]
  rfl

theorem wordKind_ne_number (text : String) : Lexeme.wordKind text ≠ .number := by
  unfold Lexeme.wordKind
  cases Keyword.ofText? text <;> exact nofun

theorem Lexeme.number_token {l : Lexeme} {t : Token} (h : l.yield.token? = some t)
    (hk : t.kind = .number) :
    l.tag = .number ∧ t.lexeme = l.text ∧ t.literal = some (.number l.number) := by
  unfold Lexeme.yield at h
  cases htag : l.tag with
  | number =>
    rw [htag] at h
    cases h
    exact ⟨rfl, rfl, rfl⟩
  | ident =>
    rw [htag] at h
    cases h
    exact absurd hk (wordKind_ne_number l.text)
  | string | operator o | eof =>
    rw [htag] at h
    cases h
    cases hk
  | _ =>
    rw [htag] at h
    cases h

/-- A number token denotes a rational, is read, and stands for the value nearest to the rational. -/
structure Token.ReadsAs (t : Token) (q : ℚ) (x : Binary64) : Prop where
  denotes : ∀ p, Denotes t.lexeme.toList p ↔ p = q
  ofText?_eq : Binary64.ofText? t.lexeme = some x
  literal_eq : t.literal = some (.number x)
  nearest : Binary64.Nearest q x

theorem exists_readsAs {source : String} {t : Token} (ht : t ∈ (lex source).tokens)
    (hk : t.kind = .number) :
    ∃ q rank, t.ReadsAs q (Binary64.ofRank false rank) ∧ Binary64.RoundsTo q rank := by
  rw [tokens_eq] at ht
  obtain ⟨c, hc, hy⟩ := List.mem_filterMap.mp ht
  obtain ⟨htag, htext, hlit⟩ := Lexeme.number_token hy hk
  obtain ⟨before, piece, after, hm⟩ := Cursor.exists_meets_of_mem hc
  have hspells := hm.spells (by rw [htag]; decide)
  rw [htag, ← hm.text_eq, ← htext] at hspells
  obtain ⟨q, hq⟩ := exists_denotes hspells
  obtain ⟨rank, hread, hrounds⟩ := hq.exists_ofText?
  refine ⟨q, rank, ⟨?_, hread, ?_, ?_⟩, hrounds⟩
  · intro p
    constructor
    · exact fun hp => hp.unique hq
    · rintro rfl
      exact hq
  · rw [hlit, Lexeme.number, ← htext, hread]
    rfl
  · obtain ⟨d, -, rfl⟩ := hq.exists_read?
    exact hrounds.nearest d.value_nonneg

/-- Every number token of every source stands for the value nearest to the rational that its lexeme
denotes, and for no less than a number token that denotes no more. -/
theorem number_tokens_nearest {source source' : String} {t u : Token}
    (ht : t ∈ (lex source).tokens) (hu : u ∈ (lex source').tokens)
    (hkt : t.kind = .number) (hku : u.kind = .number) :
    ∃ (p q : ℚ) (x y : Binary64), t.ReadsAs p x ∧ u.ReadsAs q y ∧
      (p ≤ q → x.extended ≤ y.extended) ∧ (p = q → x = y) := by
  obtain ⟨p, r, htp, hr⟩ := exists_readsAs ht hkt
  obtain ⟨q, s, huq, hs⟩ := exists_readsAs hu hku
  refine ⟨p, q, _, _, htp, huq, ?_, ?_⟩
  · intro hle
    exact Binary64.extended_le_extended (hr.le_of_le hs hle) hs.le_infinity
  · intro heq
    rw [Nat.le_antisymm (hr.le_of_le hs heq.le) (hs.le_of_le hr heq.ge)]

/-- A tenth with zeros around it is the same value as without them. -/
theorem number_tokens_nearest_tenth :
    (⟨.number, "0.1", some (.number ⟨0x3FB999999999999A⟩), 1⟩ : Token) ∈ (lex "x=0.1;").tokens ∧
      (⟨.number, "00.10", some (.number ⟨0x3FB999999999999A⟩), 2⟩ : Token) ∈
        (lex "\n00.10").tokens ∧
      ∃ (p q : ℚ) (x y : Binary64),
        Token.ReadsAs ⟨.number, "0.1", some (.number ⟨0x3FB999999999999A⟩), 1⟩ p x ∧
        Token.ReadsAs ⟨.number, "00.10", some (.number ⟨0x3FB999999999999A⟩), 2⟩ q y ∧
        (p ≤ q → x.extended ≤ y.extended) ∧ (p = q → x = y) := by
  have ht : (⟨.number, "0.1", some (.number ⟨0x3FB999999999999A⟩), 1⟩ : Token) ∈
      (lex "x=0.1;").tokens := by
    decide +kernel
  have hu : (⟨.number, "00.10", some (.number ⟨0x3FB999999999999A⟩), 2⟩ : Token) ∈
      (lex "\n00.10").tokens := by
    decide +kernel
  exact ⟨ht, hu, number_tokens_nearest ht hu rfl rfl⟩

end LoxFront
