import LoxFront.Lexeme.Scan
import LoxFront.Proofs.Longest
import LoxFront.Proofs.Passage

namespace LoxFront.Cursor
open Text Lexical

/-! ## Numbers and strings -/

theorem fraction_iff {c : Cursor} {cs : List Char} (h : c.rest = encode cs) :
    (c.current = Byte.dot ∧ Byte.isDigit c.peek = true) ↔
      ∃ e r, cs = '.' :: e :: r ∧ e.isDigit = true := by
  cases cs with
  | nil =>
    have hc : c.current = Byte.endMark := by
      rw [current, h]
      rfl
    rw [hc]
    simp only [reduceCtorEq, false_and, exists_false, iff_false, not_and]
    exact fun he => absurd he (by decide)
  | cons y r =>
    have hc : c.current = lead y := by
      rw [current, h, encode_cons, List.headD_cons]
    have hdot : c.current = Byte.dot ↔ y = '.' := by
      rw [hc]
      exact lead_eq_lead_iff (d := '.') (by decide)
    rw [hdot]
    constructor
    · rintro ⟨rfl, hd⟩
      rw [peek, h, encode_cons, trail_of_ascii (by decide), List.nil_append, List.tail_cons] at hd
      cases r with
      | nil => exact absurd hd (by decide)
      | cons e r =>
        rw [encode_cons, List.headD_cons, isDigit_lead] at hd
        exact ⟨e, r, rfl, hd⟩
    · rintro ⟨e, r', he, hd⟩
      obtain ⟨rfl, rfl⟩ := List.cons.inj he
      refine ⟨rfl, ?_⟩
      rw [peek, h, encode_cons, trail_of_ascii (by decide), List.nil_append, List.tail_cons,
        encode_cons, List.headD_cons, isDigit_lead]
      exact hd

theorem finishNumber_text {c : Cursor} {x : Char} {cs : List Char} (hx : x.isDigit = true)
    (h : c.rest = encode cs) :
    ∃ word, c.Passed (encode word) c.finishNumber ∧ Longest (x :: cs) .number (x :: word) := by
  have hcoarse := coarse_of_high isDigit_of_high
  obtain ⟨hw, hr⟩ := skipWhile_text hcoarse (by decide) isDigit_lead h
  by_cases hf : ∃ e r, cs.dropWhile Char.isDigit = '.' :: e :: r ∧ e.isDigit = true
  · have hcond := (fraction_iff hr).mpr hf
    obtain ⟨e, r, hdrop, hd⟩ := hf
    rw [hdrop] at hr
    obtain ⟨ha, hra⟩ := advance_text (by decide) hr
    obtain ⟨hs, -⟩ := skipWhile_text hcoarse (by decide) isDigit_lead hra
    rw [List.takeWhile_cons_of_pos hd] at hs
    refine ⟨_, ?_, longest_fraction hx hdrop hd⟩
    have hm := hw.trans (ha.trans hs)
    rw [← encode_append, ← encode_append] at hm
    simp only [finishNumber, if_pos hcond]
    exact hm
  · have hcond := mt (fraction_iff hr).mp hf
    refine ⟨_, ?_, longest_whole hx ?_⟩
    · simp only [finishNumber, if_neg hcond]
      exact hw
    · intro d r hdrop
      rw [Bool.eq_false_iff]
      exact fun hd => hf ⟨d, r, hdrop, hd⟩

theorem finishString_text {c : Cursor} {cs : List Char} (h : c.rest = encode cs) :
    ∃ word, c.Passed (encode word) c.finishString.2 ∧
      Longest ('"' :: cs) c.finishString.1 ('"' :: word) := by
  by_cases hm : '"' ∈ cs
  · obtain ⟨body, r, rfl, hb⟩ := List.eq_append_cons_of_mem hm
    obtain ⟨d, hs, hp, hr⟩ := seek_found (by decide) hb h
    have hf : c.finishString = (.string, d.advance) := by
      simp only [finishString, show c.seek Byte.quote = (true, d) from hs]
    have ha := (advance_text (by decide) hr).1
    rw [hf]
    refine ⟨body ++ ['"'], ?_, longest_string hb r⟩
    rw [encode_append]
    exact hp.trans ha
  · obtain ⟨d, hs, hp⟩ := seek_missing (by decide) hm h
    have hf : c.finishString = (.unterminatedString, d) := by
      simp only [finishString, show c.seek Byte.quote = (false, d) from hs]
    rw [hf]
    exact ⟨cs, hp, longest_self ⟨cs, hm, rfl⟩⟩

/-! ## Comments -/

theorem closing_of_pair {cs : List Char} {pre post : List UInt8}
    (h : encode cs = pre ++ Byte.star :: Byte.slash :: post) :
    ∃ us vs, cs = us ++ closing ++ vs ∧ encode us = pre ∧ encode vs = post := by
  obtain ⟨us, ws, rfl, hus, hws⟩ := exists_of_encode_eq_append (d := '*') (by decide) h
  have hws' : encode ws = [] ++ lead '/' :: post := hws
  obtain ⟨xs, vs, rfl, hxs, hvs⟩ := exists_of_encode_eq_append (by decide) hws'
  rw [encode_eq_nil hxs]
  exact ⟨us, vs, by rw [closing, List.append_assoc]; rfl, hus, hvs⟩

theorem encode_closing_append (us vs : List Char) :
    encode (us ++ closing ++ vs) = encode us ++ Byte.star :: Byte.slash :: encode vs := by
  rw [List.append_assoc, encode_append, encode_append]
  rfl

/-- Of two occurrences of a mark at the end and further in front, the one in front comes first. -/
theorem eq_nil_of_first {us us' ws : List Char} (hle : (encode us).length ≤ (encode us').length)
    (he : us ++ closing = us' ++ closing ++ ws) : ws = [] := by
  have hlen := congrArg List.length he
  simp only [List.length_append] at hlen
  have hstart : us' <+: us := by
    have hus : us <+: us ++ closing := List.prefix_append _ _
    have hus' : us' <+: us ++ closing := by
      rw [he, List.append_assoc]
      exact List.prefix_append _ _
    apply List.prefix_of_prefix_length_le hus' hus
    omega
  obtain ⟨ms, rfl⟩ := hstart
  rw [encode_append, List.length_append] at hle
  have hms : ms = [] := encode_eq_nil (List.eq_nil_of_length_eq_zero (by omega))
  rw [hms, List.append_nil] at hlen
  exact List.eq_nil_of_length_eq_zero (by omega)

theorem finishBlock_text {c : Cursor} {cs : List Char} (h : c.rest = encode cs) :
    ∃ word, c.Passed (encode word) c.finishBlock.2 ∧
      Longest ('/' :: '*' :: cs) c.finishBlock.1 ('/' :: '*' :: word) := by
  cases hp : pairIdx? Byte.star Byte.slash 0 c.rest with
  | some n =>
    obtain ⟨pre, post, he, hn, hfirst⟩ := pairIdx?_eq_some hp
    rw [h] at he hfirst
    obtain ⟨us, vs, rfl, rfl, rfl⟩ := closing_of_pair he
    have hf : c.finishBlock = (.blockComment, (c.pass n).advance.advance) := by
      simp only [finishBlock, seekPair, hp]
    have htake : c.rest.take n = encode us := by
      rw [h, he, hn, Nat.zero_add, List.take_left]
    have hpass := passed_pass c n
    rw [htake] at hpass
    have hrest : (c.pass n).rest = encode ('*' :: '/' :: vs) := by
      apply hpass.rest_eq
      rw [h, he]
      rfl
    obtain ⟨ha, hra⟩ := advance_text (by decide) hrest
    obtain ⟨ha', -⟩ := advance_text (by decide) hra
    rw [hf]
    refine ⟨us ++ closing, ?_, longest_blockComment ?_ vs⟩
    · rw [encode_append]
      exact hpass.trans (ha.trans ha')
    · intro us' ws hw
      apply eq_nil_of_first (hfirst (encode us') (encode (ws ++ vs)) ?_) hw
      rw [← encode_closing_append, hw, List.append_assoc]
  | none =>
    have hopen : ¬ closing <:+: cs := by
      rintro ⟨us, vs, rfl⟩
      exact pairIdx?_eq_none hp _ _ (h.trans (encode_closing_append us vs))
    have hpass := passed_pass c c.rest.length
    rw [List.take_length, h] at hpass
    have hlast : c.rest.getLast? = some Byte.star ↔ cs.getLast? = some '*' := by
      rw [h]
      exact getLast?_encode_iff (d := '*') (by decide)
    by_cases hl : cs.getLast? = some '*'
    · have hf : c.finishBlock = (.malformedBlockComment, c.pass c.rest.length) := by
        simp only [finishBlock, seekPair, hp, if_pos (hlast.mpr hl)]
      rw [hf, h]
      exact ⟨cs, hpass, longest_self ⟨cs, rfl, hopen, hl⟩⟩
    · have hf : c.finishBlock = (.unterminatedBlockComment, c.pass c.rest.length) := by
        simp only [finishBlock, seekPair, hp, if_neg (mt hlast.mp hl)]
      rw [hf, h]
      exact ⟨cs, hpass, longest_self ⟨cs, rfl, hopen, hl⟩⟩

theorem eat?_cons {c : Cursor} {d : Char} (hd : d.toNat < 128) {cs : List Char}
    (h : c.rest = encode (d :: cs)) : c.eat? (lead d) = some c.advance := by
  rw [eat?, if_pos]
  rw [h, head?_encode_iff hd, List.head?_cons]

theorem eat?_none {c : Cursor} {d : Char} (hd : d.toNat < 128) {cs : List Char}
    (h : c.rest = encode cs) (hne : cs.head? ≠ some d) : c.eat? (lead d) = none := by
  rw [eat?, if_neg]
  rw [h, head?_encode_iff hd]
  exact hne

theorem finishSlash_text {c : Cursor} {cs : List Char} (h : c.rest = encode cs) :
    ∃ word, c.Passed (encode word) c.finishSlash.2 ∧
      Longest ('/' :: cs) c.finishSlash.1 ('/' :: word) := by
  by_cases h1 : cs.head? = some '/'
  · obtain ⟨r, rfl⟩ := List.head?_eq_some_iff.mp h1
    have hf : c.finishSlash = (.lineComment, c.advance.skipLine) := by
      simp only [finishSlash, show c.eat? Byte.slash = _ from eat?_cons (by decide) h]
    obtain ⟨ha, hra⟩ := advance_text (by decide) h
    have hq (x : Char) : (lead x != Byte.newline) = (x != '\n') := by
      rw [Bool.eq_iff_iff, bne_iff_ne, bne_iff_ne, ne_eq, ne_eq]
      exact not_congr (lead_eq_lead_iff (d := '\n') (by decide))
    obtain ⟨hs, -⟩ := skipWhile_text (coarse_ne (by decide)) (by decide) hq hra
    rw [hf]
    exact ⟨'/' :: r.takeWhile (· != '\n'), passed_cons ha hs, longest_lineComment r⟩
  · have hn1 : c.eat? Byte.slash = none := eat?_none (d := '/') (by decide) h h1
    by_cases h2 : cs.head? = some '*'
    · obtain ⟨r, rfl⟩ := List.head?_eq_some_iff.mp h2
      have hf : c.finishSlash = c.advance.finishBlock := by
        simp only [finishSlash, hn1, show c.eat? Byte.star = _ from eat?_cons (by decide) h]
      obtain ⟨ha, hra⟩ := advance_text (by decide) h
      obtain ⟨word, hp, hl⟩ := finishBlock_text hra
      rw [hf]
      exact ⟨'*' :: word, passed_cons ha hp, hl⟩
    · have hn2 : c.eat? Byte.star = none := eat?_none (d := '*') (by decide) h h2
      have hf : c.finishSlash = (.operator .slash, c) := by
        simp only [finishSlash, hn1, hn2]
      rw [hf]
      exact ⟨[], Passed.refl c, longest_slash h1 h2⟩

/-! ## Operators -/

theorem mem_all (o : Operator) : o ∈ Operator.all := by
  cases o <;> decide

theorem single?_spec {b : UInt8} {o : Operator} (h : Operator.single? b = some o) :
    b = lead (first o) ∧ (first o).toNat < 128 ∧ initial (first o) = .mark (first o) ∧
      o.spelling.toList = [first o] ∧ ∀ o' ∈ Operator.all, first o' = first o → o' = o := by
  unfold Operator.single? at h
  split at h
  all_goals first
    | (cases h; decide)
    | cases h

theorem paired?_spec {b : UInt8} {o p : Operator} (h : Operator.paired? b = some (o, p)) :
    b = lead (first o) ∧ (first o).toNat < 128 ∧ initial (first o) = .mark (first o) ∧
      o.spelling.toList = [first o] ∧ p.spelling.toList = [first o, '='] ∧
      ∀ o' ∈ Operator.all, first o' = first o → o' = o ∨ o' = p := by
  unfold Operator.paired? at h
  split at h
  all_goals first
    | (cases h; decide)
    | cases h

theorem isMark_eq_false {x : Char} (hs : x ≠ '/') (h1 : Operator.single? (lead x) = none)
    (h2 : Operator.paired? (lead x) = none) : isMark x = false := by
  have htable : ∀ o ∈ Operator.all, first o ≠ '/' → Operator.single? (lead (first o)) = none →
      Operator.paired? (lead (first o)) ≠ none := by
    decide
  rw [Bool.eq_false_iff]
  intro hm
  obtain ⟨o, ho, hx⟩ := List.any_eq_true.mp hm
  obtain rfl := beq_iff_eq.mp hx
  exact htable o ho hs h1 h2

theorem longest_single {x : Char} {o : Operator} (h : Operator.single? (lead x) = some o)
    (cs : List Char) : Longest (x :: cs) (.operator o) [x] := by
  obtain ⟨hl, hascii, hi, hsp, honly⟩ := single?_spec h
  obtain rfl := (lead_eq_lead_iff hascii).mp hl
  apply longest_operator hi hsp List.nil_prefix
  intro o' w ho' _
  have hfirst : first o' = first o := by
    conv_lhs => rw [first, ho', List.headD_cons]
  obtain rfl := honly o' (mem_all o') hfirst
  exact Nat.le_of_eq (congrArg List.length (List.cons.inj (ho'.symm.trans hsp)).2)

theorem finishPaired_text {c : Cursor} {x : Char} {o p : Operator} {cs : List Char}
    (hx : Operator.paired? (lead x) = some (o, p)) (h : c.rest = encode cs) :
    ∃ word, c.Passed (encode word) (c.finishPaired o p).2 ∧
      Longest (x :: cs) (c.finishPaired o p).1 (x :: word) := by
  obtain ⟨hl, hascii, hi, hso, hsp, honly⟩ := paired?_spec hx
  obtain rfl := (lead_eq_lead_iff hascii).mp hl
  have hforms (o' : Operator) (w : List Char) (ho' : o'.spelling.toList = first o :: w) :
      w = [] ∨ w = ['='] := by
    have hfirst : first o' = first o := by
      conv_lhs => rw [first, ho', List.headD_cons]
    rcases honly o' (mem_all o') hfirst with rfl | rfl
    · exact Or.inl (List.cons.inj (ho'.symm.trans hso)).2
    · exact Or.inr (List.cons.inj (ho'.symm.trans hsp)).2
  by_cases he : cs.head? = some '='
  · obtain ⟨r, rfl⟩ := List.head?_eq_some_iff.mp he
    have hf : c.finishPaired o p = (.operator p, c.advance) := by
      simp only [finishPaired, show c.eat? Byte.equals = _ from eat?_cons (by decide) h]
    rw [hf]
    refine ⟨['='], (advance_text (by decide) h).1, longest_operator hi hsp ⟨r, rfl⟩ ?_⟩
    intro o' w ho' _
    rcases hforms o' w ho' with rfl | rfl
    · exact Nat.zero_le _
    · exact Nat.le_refl _
  · have hn : c.eat? Byte.equals = none := eat?_none (d := '=') (by decide) h he
    have hf : c.finishPaired o p = (.operator o, c) := by
      simp only [finishPaired, hn]
    rw [hf]
    refine ⟨[], Passed.refl c, longest_operator hi hso List.nil_prefix ?_⟩
    intro o' w ho' hw
    rcases hforms o' w ho' with rfl | rfl
    · exact Nat.zero_le _
    · obtain ⟨r, rfl⟩ := hw
      exact absurd rfl he

/-! ## Any lexeme -/

theorem stray_of_lead {x : Char} (hb : ¬ Byte.isBlank (lead x) = true)
    (hn : lead x ≠ Byte.newline) (hl : ¬ Byte.isLetter (lead x) = true)
    (hd : ¬ Byte.isDigit (lead x) = true) (hq : lead x ≠ Byte.quote) (hs : lead x ≠ Byte.slash)
    (h1 : Operator.single? (lead x) = none) (h2 : Operator.paired? (lead x) = none) :
    initial x = .stray := by
  have hb' : ¬ isSpacing x = true := fun he => hb ((isBlank_lead x).trans he)
  have hn' : x ≠ '\n' := fun he => hn (congrArg lead he)
  have hl' : ¬ isLetter x = true := fun he => hl ((isLetter_lead x).trans he)
  have hd' : ¬ x.isDigit = true := fun he => hd ((isDigit_lead x).trans he)
  have hq' : x ≠ '"' := fun he => hq (congrArg lead he)
  have hs' : x ≠ '/' := fun he => hs (congrArg lead he)
  rw [initial, if_neg hb', if_neg hn', if_neg hl', if_neg hd', if_neg hq', if_neg hs',
    isMark_eq_false hs' h1 h2, if_neg Bool.false_ne_true]

theorem scan_mark_text {c : Cursor} {x : Char} {cs : List Char} (h : c.rest = encode (x :: cs))
    (hx : x ≠ '\n')
    (hsingle : ∀ o, Operator.single? (lead x) = some o → c.scan = (.operator o, c.advance))
    (hpaired : ∀ o p, Operator.single? (lead x) = none → Operator.paired? (lead x) = some (o, p) →
      c.scan = c.advance.finishPaired o p)
    (hstray : Operator.single? (lead x) = none → Operator.paired? (lead x) = none →
      c.scan = (.invalidChar, c.advanceChar) ∧ initial x = .stray) :
    ∃ word, c.Passed (encode word) c.scan.2 ∧ Longest (x :: cs) c.scan.1 word := by
  cases h1 : Operator.single? (lead x) with
  | some o =>
    obtain ⟨he, hascii, -⟩ := single?_spec h1
    rw [← (lead_eq_lead_iff hascii).mp he] at hascii
    rw [hsingle o h1]
    exact ⟨[x], (advance_text hascii h).1, longest_single h1 cs⟩
  | none =>
    cases h2 : Operator.paired? (lead x) with
    | some op =>
      obtain ⟨o, p⟩ := op
      obtain ⟨he, hascii, -⟩ := paired?_spec h2
      rw [← (lead_eq_lead_iff hascii).mp he] at hascii
      obtain ⟨ha, hra⟩ := advance_text hascii h
      obtain ⟨word, hp, hlong⟩ := finishPaired_text h2 hra
      rw [hpaired o p h1 h2]
      exact ⟨x :: word, passed_cons ha hp, hlong⟩
    | none =>
      obtain ⟨hs, hi⟩ := hstray h1 h2
      rw [hs]
      exact ⟨[x], advanceChar_text hx h, longest_invalidChar hi cs⟩

/-- A scan that starts in front of a character takes the longest word there, and only whole
characters. -/
theorem scan_longest {c : Cursor} {x : Char} {cs : List Char} (h : c.rest = encode (x :: cs)) :
    ∃ word, c.Passed (encode word) c.scan.2 ∧ Longest (x :: cs) c.scan.1 word := by
  have hrest : c.rest = lead x :: (trail x ++ encode cs) := h.trans (encode_cons x cs)
  -- The cases are the tests of the scan, in its order.
  by_cases hb : Byte.isBlank (lead x) = true
  · have hs : c.scan = (.whitespace, c.advance.skipWhile Byte.isBlank) := by
      simp only [scan, hrest, if_pos hb]
    obtain ⟨ha, hra⟩ := advance_text (toNat_lt_of_class isBlank_of_high hb) h
    obtain ⟨hr, -⟩ := skipWhile_text (q := isSpacing) (coarse_of_high isBlank_of_high) (by decide)
      isBlank_lead hra
    rw [isBlank_lead] at hb
    rw [hs]
    exact ⟨_, passed_cons ha hr, longest_whitespace hb cs⟩
  by_cases hn : lead x = Byte.newline
  · have hs : c.scan = (.newline, c.advance) := by
      simp only [scan, hrest, if_neg hb, if_pos hn]
    obtain rfl : x = '\n' := (lead_eq_lead_iff (by decide)).mp hn
    rw [hs]
    exact ⟨_, (advance_text (by decide) h).1, longest_newline cs⟩
  by_cases hl : Byte.isLetter (lead x) = true
  · have hs : c.scan = (.ident, c.advance.skipWhile Byte.isWord) := by
      simp only [scan, hrest, if_neg hb, if_neg hn, if_pos hl]
    have hq (y : Char) : Byte.isWord (lead y) = isWord y := by
      rw [Byte.isWord, isLetter_lead, isDigit_lead]
      rfl
    obtain ⟨ha, hra⟩ := advance_text (toNat_lt_of_class isLetter_of_high hl) h
    obtain ⟨hr, -⟩ := skipWhile_text (coarse_of_high isWord_of_high) (by decide) hq hra
    rw [isLetter_lead] at hl
    rw [hs]
    exact ⟨_, passed_cons ha hr, longest_ident hl cs⟩
  by_cases hd : Byte.isDigit (lead x) = true
  · have hs : c.scan = (.number, c.advance.finishNumber) := by
      simp only [scan, hrest, if_neg hb, if_neg hn, if_neg hl, if_pos hd]
    obtain ⟨ha, hra⟩ := advance_text (toNat_lt_of_class isDigit_of_high hd) h
    rw [isDigit_lead] at hd
    obtain ⟨word, hp, hlong⟩ := finishNumber_text hd hra
    rw [hs]
    exact ⟨_, passed_cons ha hp, hlong⟩
  by_cases hq : lead x = Byte.quote
  · have hs : c.scan = c.advance.finishString := by
      simp only [scan, hrest, if_neg hb, if_neg hn, if_neg hl, if_neg hd, if_pos hq]
    obtain rfl : x = '"' := (lead_eq_lead_iff (by decide)).mp hq
    obtain ⟨ha, hra⟩ := advance_text (by decide) h
    obtain ⟨word, hp, hlong⟩ := finishString_text hra
    rw [hs]
    exact ⟨_, passed_cons ha hp, hlong⟩
  by_cases hsl : lead x = Byte.slash
  · have hs : c.scan = c.advance.finishSlash := by
      simp only [scan, hrest, if_neg hb, if_neg hn, if_neg hl, if_neg hd, if_neg hq, if_pos hsl]
    obtain rfl : x = '/' := (lead_eq_lead_iff (by decide)).mp hsl
    obtain ⟨ha, hra⟩ := advance_text (by decide) h
    obtain ⟨word, hp, hlong⟩ := finishSlash_text hra
    rw [hs]
    exact ⟨_, passed_cons ha hp, hlong⟩
  apply scan_mark_text h
  · intro he
    exact hn (congrArg lead he)
  · intro o h1
    simp only [scan, hrest, if_neg hb, if_neg hn, if_neg hl, if_neg hd, if_neg hq, if_neg hsl, h1]
  · intro o p h1 h2
    simp only [scan, hrest, if_neg hb, if_neg hn, if_neg hl, if_neg hd, if_neg hq, if_neg hsl,
      h1, h2]
  · intro h1 h2
    refine ⟨?_, stray_of_lead hb hn hl hd hq hsl h1 h2⟩
    simp only [scan, hrest, if_neg hb, if_neg hn, if_neg hl, if_neg hd, if_neg hq, if_neg hsl,
      h1, h2]

end LoxFront.Cursor
