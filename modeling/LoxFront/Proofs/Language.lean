import LoxFront.Lexeme.Tag
import Mathlib.Data.List.Infix
import Mathlib.Tactic.Common

/-! The languages of the tags, over characters. No text is in two of them. -/
namespace LoxFront

namespace Lexical

def isSpacing (c : Char) : Bool :=
  c == ' ' || c == '\t' || c == '\r'

def isLetter (c : Char) : Bool :=
  c.isAlpha || c == '_'

def isWord (c : Char) : Bool :=
  isLetter c || c.isDigit

def IsDigits (ds : List Char) : Prop :=
  ds ≠ [] ∧ ∀ d ∈ ds, d.isDigit = true

def closing : List Char :=
  ['*', '/']

end Lexical

namespace Tag
open Lexical

/-- The words of a tag of the lexical grammar proper. The rest of the characters, and the end of
input, have no words here. -/
def Matches : Tag → List Char → Prop
  | ident, w => ∃ c cs, w = c :: cs ∧ isLetter c = true ∧ ∀ d ∈ cs, isWord d = true
  | number, w => ∃ ds, IsDigits ds ∧ (w = ds ∨ ∃ es, IsDigits es ∧ w = ds ++ '.' :: es)
  | string, w => ∃ body, '"' ∉ body ∧ w = '"' :: (body ++ ['"'])
  | unterminatedString, w => ∃ body, '"' ∉ body ∧ w = '"' :: body
  | operator o, w => w = o.spelling.toList
  | whitespace, w => w ≠ [] ∧ ∀ c ∈ w, isSpacing c = true
  | newline, w => w = ['\n']
  | lineComment, w => ∃ body, '\n' ∉ body ∧ w = '/' :: '/' :: body
  | blockComment, w => ∃ body, w = '/' :: '*' :: (body ++ closing) ∧
      ∀ us vs, body ++ closing = us ++ closing ++ vs → vs = []
  | malformedBlockComment, w => ∃ body, w = '/' :: '*' :: body ∧ ¬ closing <:+: body ∧
      body.getLast? = some '*'
  | unterminatedBlockComment, w => ∃ body, w = '/' :: '*' :: body ∧ ¬ closing <:+: body ∧
      body.getLast? ≠ some '*'
  | invalidChar, _ => False
  | eof, _ => False

/-- The words of a tag. An invalid character is one that starts no word of another tag. -/
def Spells : Tag → List Char → Prop
  | invalidChar, w => ∃ c, w = [c] ∧ ∀ t rest, ¬ Matches t (c :: rest)
  | t, w => t.Matches w

end Tag

namespace Lexical

/-- What the first character of a word says about it. -/
inductive Initial where
  | blank
  | newline
  | letter
  | digit
  | quote
  | slash
  | mark (c : Char)
  | stray
deriving DecidableEq

def first (o : Operator) : Char :=
  o.spelling.toList.headD ' '

def isMark (c : Char) : Bool :=
  Operator.all.any fun o => first o == c

def initial (c : Char) : Initial :=
  if isSpacing c then .blank
  else if c = '\n' then .newline
  else if isLetter c then .letter
  else if c.isDigit then .digit
  else if c = '"' then .quote
  else if c = '/' then .slash
  else if isMark c then .mark c
  else .stray

end Lexical

def Tag.initial : Tag → Lexical.Initial
  | ident => .letter
  | number => .digit
  | string | unterminatedString => .quote
  | operator .slash => .slash
  | operator o => .mark (Lexical.first o)
  | whitespace => .blank
  | newline => .newline
  | lineComment | blockComment | unterminatedBlockComment | malformedBlockComment => .slash
  | invalidChar | eof => .stray

/-- No other tag has words that start with the same class of characters. -/
def Tag.isSole : Tag → Bool
  | whitespace | newline | ident | number => true
  | _ => false

namespace Lexical

theorem eq_of_isSole {t t' : Tag} (hs : t'.isSole = true) (h : t.initial = t'.initial) : t = t' := by
  -- Only the slash and the other operators share a tag constructor, so these are told apart first.
  have hop (o : Operator) : (Tag.operator o).initial = .slash ∨
      (Tag.operator o).initial = .mark (first o) := by
    cases o with
    | slash => exact Or.inl rfl
    | _ => exact Or.inr rfl
  cases t' with
  | whitespace | newline | ident | number =>
    cases t with
    | operator o =>
      rcases hop o with ho | ho
      · rw [ho] at h
        cases h
      · rw [ho] at h
        cases h
    | _ => first
      | rfl
      | cases h
  | _ => cases hs

theorem initial_of_blank {c : Char} (h : isSpacing c = true) : initial c = .blank :=
  if_pos h

theorem isSpacing_eq_false {c : Char} (h1 : c ≠ ' ') (h2 : c ≠ '\t') (h3 : c ≠ '\r') :
    isSpacing c = false := by
  simp only [isSpacing, Bool.or_eq_false_iff, beq_eq_false_iff_ne]
  exact ⟨⟨h1, h2⟩, h3⟩

theorem initial_of_letter {c : Char} (h : isLetter c = true) : initial c = .letter := by
  have hb : isSpacing c = false := by
    refine isSpacing_eq_false ?_ ?_ ?_ <;> rintro rfl <;> exact absurd h (by decide)
  have hn : c ≠ '\n' := by
    rintro rfl
    exact absurd h (by decide)
  rw [initial, hb, if_neg Bool.false_ne_true, if_neg hn, if_pos h]

theorem isLetter_of_isDigit {c : Char} (h : c.isDigit = true) : isLetter c = false := by
  simp only [Char.isDigit, Bool.and_eq_true, decide_eq_true_eq, UInt32.le_iff_toNat_le] at h
  have h9 : c.val.toNat ≤ 57 := h.2
  rw [Bool.eq_false_iff]
  intro hl
  rcases Bool.or_eq_true_iff.mp hl with hl | hl
  · have h65 : 65 ≤ c.val.toNat := by
      rcases Bool.or_eq_true_iff.mp hl with hu | hu
      · exact UInt32.le_iff_toNat_le.mp (of_decide_eq_true hu).1
      · have h97 : 97 ≤ c.val.toNat :=
          UInt32.le_iff_toNat_le.mp (of_decide_eq_true (Bool.and_eq_true_iff.mp hu).1)
        omega
    omega
  · obtain rfl := beq_iff_eq.mp hl
    exact absurd h9 (by decide)

theorem initial_of_digit {c : Char} (h : c.isDigit = true) : initial c = .digit := by
  have hb : isSpacing c = false := by
    refine isSpacing_eq_false ?_ ?_ ?_ <;> rintro rfl <;> exact absurd h (by decide)
  have hn : c ≠ '\n' := by
    rintro rfl
    exact absurd h (by decide)
  rw [initial, hb, if_neg Bool.false_ne_true, if_neg hn, isLetter_of_isDigit h,
    if_neg Bool.false_ne_true, if_pos h]

theorem spelling_eq_cons (o : Operator) : ∃ w, o.spelling.toList = first o :: w := by
  cases o <;> exact ⟨_, rfl⟩

theorem initial_first (o : Operator) : initial (first o) = (Tag.operator o).initial := by
  cases o <;> decide

theorem initial_of_matches {t : Tag} {c : Char} {w : List Char} (h : t.Matches (c :: w)) :
    initial c = t.initial := by
  cases t with
  | ident =>
    obtain ⟨d, ds, he, hd, -⟩ := h
    obtain ⟨rfl, rfl⟩ := List.cons.inj he
    exact initial_of_letter hd
  | number =>
    obtain ⟨ds, ⟨hne, hall⟩, he⟩ := h
    cases ds with
    | nil => exact absurd rfl hne
    | cons d ds =>
      have hcd : c = d := by
        rcases he with he | ⟨es, -, he⟩
        · exact (List.cons.inj he).1
        · exact (List.cons.inj he).1
      rw [hcd]
      exact initial_of_digit (hall d List.mem_cons_self)
  | whitespace => exact initial_of_blank (h.2 c List.mem_cons_self)
  | operator o =>
    have he : c :: w = o.spelling.toList := h
    have hc : first o = c := by
      rw [first, ← he, List.headD_cons]
    rw [← hc, initial_first]
  | newline =>
    obtain ⟨rfl, -⟩ := List.cons.inj (show c :: w = ['\n'] from h)
    rfl
  | string | unterminatedString =>
    obtain ⟨body, -, he⟩ := h
    obtain ⟨rfl, -⟩ := List.cons.inj he
    rfl
  | lineComment =>
    obtain ⟨body, -, he⟩ := h
    obtain ⟨rfl, -⟩ := List.cons.inj he
    rfl
  | blockComment | unterminatedBlockComment | malformedBlockComment =>
    obtain ⟨body, he, -⟩ := h
    obtain ⟨rfl, -⟩ := List.cons.inj he
    rfl
  | invalidChar | eof => exact h.elim

theorem exists_spelling_of_isMark {c : Char} (h : isMark c = true) :
    ∃ o w, Tag.Matches (.operator o) (c :: w) := by
  obtain ⟨o, -, ho⟩ := List.any_eq_true.mp h
  obtain ⟨w, hw⟩ := spelling_eq_cons o
  rw [beq_iff_eq.mp ho] at hw
  exact ⟨o, w, hw.symm⟩

theorem initial_eq_stray_iff {c : Char} :
    initial c = .stray ↔ ∀ (t : Tag) (w : List Char), ¬ t.Matches (c :: w) := by
  constructor
  · intro h t w hm
    have hi := (initial_of_matches hm).symm.trans h
    cases t with
    | invalidChar | eof => exact hm
    | operator o => cases o <;> cases hi
    | _ => cases hi
  · intro h
    unfold initial
    split_ifs with hb hn hl hd hq hs hm
    · exact absurd ⟨List.cons_ne_nil _ _, by simpa using hb⟩ (h .whitespace [])
    · exact absurd (by rw [hn]; rfl) (h .newline [])
    · exact absurd ⟨c, [], rfl, hl, List.forall_mem_nil _⟩ (h .ident [])
    · exact absurd ⟨[c], ⟨List.cons_ne_nil _ _, by simpa using hd⟩, Or.inl rfl⟩ (h .number [])
    · exact absurd ⟨[], List.not_mem_nil, by rw [hq]⟩ (h .unterminatedString [])
    · exact absurd (by rw [hs]; rfl) (h (.operator .slash) [])
    · obtain ⟨o, w, ho⟩ := exists_spelling_of_isMark hm
      exact absurd ho (h _ _)
    · rfl

theorem initial_of_spells {t : Tag} {c : Char} {w : List Char} (h : t.Spells (c :: w)) :
    initial c = t.initial := by
  cases t with
  | invalidChar =>
    obtain ⟨d, he, hd⟩ := h
    obtain ⟨rfl, rfl⟩ := List.cons.inj he
    exact initial_eq_stray_iff.mpr hd
  | eof => exact h.elim
  | _ => exact initial_of_matches h

theorem exists_cons_of_spells {t : Tag} {w : List Char} (h : t.Spells w) :
    ∃ c cs, w = c :: cs ∧ initial c = t.initial := by
  cases w with
  | cons c cs => exact ⟨c, cs, rfl, initial_of_spells h⟩
  | nil =>
    cases t with
    | ident | string | unterminatedString | lineComment | blockComment | invalidChar
    | unterminatedBlockComment | malformedBlockComment => simp [Tag.Spells, Tag.Matches] at h
    | number =>
      obtain ⟨ds, ⟨hne, -⟩, he | ⟨es, -, he⟩⟩ := h
      · exact absurd he.symm hne
      · exact absurd he.symm (by simp)
    | whitespace => exact absurd rfl h.1
    | newline => exact absurd (show [] = ['\n'] from h) (List.cons_ne_nil _ _).symm
    | operator o =>
      obtain ⟨w, hw⟩ := spelling_eq_cons o
      exact absurd (Eq.trans (show [] = o.spelling.toList from h) hw) (List.cons_ne_nil _ _).symm
    | eof => exact h.elim

def operatorOf (w : List Char) : Operator :=
  (Operator.all.find? fun o => o.spelling.toList == w).getD .slash

theorem operatorOf_spelling (o : Operator) : operatorOf o.spelling.toList = o := by
  cases o <;> decide

/-- The only tag that may spell a given word. -/
def tagOf : List Char → Tag
  | [] => .eof
  | c :: cs =>
    match initial c with
    | .blank => .whitespace
    | .newline => .newline
    | .letter => .ident
    | .digit => .number
    | .quote => if '"' ∈ cs then .string else .unterminatedString
    | .slash =>
      match cs with
      | '/' :: _ => .lineComment
      | '*' :: body =>
        if closing <:+: body then .blockComment
        else if body.getLast? = some '*' then .malformedBlockComment
        else .unterminatedBlockComment
      | _ => .operator .slash
    | .mark _ => .operator (operatorOf (c :: cs))
    | .stray => .invalidChar

theorem tagOf_of_spells {t : Tag} {w : List Char} (h : t.Spells w) : tagOf w = t := by
  obtain ⟨c, cs, rfl, hi⟩ := exists_cons_of_spells h
  cases t with
  | ident | number | whitespace | newline | invalidChar => simp only [tagOf, hi, Tag.initial]
  | string =>
    obtain ⟨body, -, he⟩ := h
    have hm : '"' ∈ cs := by
      rw [(List.cons.inj he).2]
      exact List.mem_append_right _ List.mem_cons_self
    simp only [tagOf, hi, Tag.initial, if_pos hm]
  | unterminatedString =>
    obtain ⟨body, hb, he⟩ := h
    have hm : '"' ∉ cs := by
      rwa [(List.cons.inj he).2]
    simp only [tagOf, hi, Tag.initial, if_neg hm]
  | lineComment =>
    obtain ⟨body, -, he⟩ := h
    rw [(List.cons.inj he).2]
    simp only [tagOf, hi, Tag.initial]
  | blockComment =>
    obtain ⟨body, he, -⟩ := h
    rw [(List.cons.inj he).2]
    have hc : closing <:+: body ++ closing := (List.suffix_append _ _).isInfix
    simp only [tagOf, hi, Tag.initial, if_pos hc]
  | malformedBlockComment =>
    obtain ⟨body, he, hc, hl⟩ := h
    rw [(List.cons.inj he).2]
    simp only [tagOf, hi, Tag.initial, if_neg hc, if_pos hl]
  | unterminatedBlockComment =>
    obtain ⟨body, he, hc, hl⟩ := h
    rw [(List.cons.inj he).2]
    simp only [tagOf, hi, Tag.initial, if_neg hc, if_neg hl]
  | operator o =>
    have he : c :: cs = o.spelling.toList := h
    have ho := operatorOf_spelling o
    rw [← he] at ho
    cases o with
    | slash =>
      obtain ⟨rfl, rfl⟩ := List.cons.inj he
      rfl
    | _ => simp only [tagOf, hi, Tag.initial, ho]
  | eof => exact h.elim

theorem eq_of_spells {t t' : Tag} {w : List Char} (h : t.Spells w) (h' : t'.Spells w) : t = t' :=
  (tagOf_of_spells h).symm.trans (tagOf_of_spells h')

end Lexical

end LoxFront
