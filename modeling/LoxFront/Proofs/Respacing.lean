import LoxFront.Proofs.Gaps

namespace LoxFront
open Text Lexical

def Token.content (t : Token) : Kind × String × Option Literal :=
  (t.kind, t.lexeme, t.literal)

/-- The tokens of a reading in front of the end of input. -/
def Lexed.words (l : Lexed) : List Token :=
  l.tokens.filter fun t => t.kind ≠ .eof

def IsGap (text : String) : Prop :=
  ∀ c ∈ text.toList, isGap c = true

/-- A text that holds words in order with gaps around them. The gap between two words is not empty. -/
inductive Respaced : List String → String → Prop where
  | blank {gap : String} : IsGap gap → Respaced [] gap
  | last {gap word tail : String} : IsGap gap → IsGap tail →
      Respaced [word] (gap ++ word ++ tail)
  | more {gap word between text : String} {words : List String} : IsGap gap → IsGap between →
    between ≠ "" → Respaced words text →
      Respaced (word :: words) (gap ++ word ++ (between ++ text))

def contentOf (s : Tag × List UInt8) : Option (Kind × String × Option Literal) :=
  (Lexeme.mk s.1 s.2 0).yield.token?.map Token.content

def causeOf (s : Tag × List UInt8) : Option Cause :=
  (Lexeme.mk s.1 s.2 0).yield.fault?.map Fault.cause

theorem contents_eq (ls : List Lexeme) :
    (tokensOf ls).map Token.content = (ls.map Lexeme.shape).filterMap contentOf := by
  rw [tokensOf, List.map_filterMap, List.filterMap_map]
  congr 1
  funext l
  obtain ⟨tag, bytes, line⟩ := l
  cases tag <;> rfl

theorem causes_eq (ls : List Lexeme) :
    (faultsOf ls).map Fault.cause = (ls.map Lexeme.shape).filterMap causeOf := by
  rw [faultsOf, List.map_filterMap, List.filterMap_map]
  congr 1
  funext l
  obtain ⟨tag, bytes, line⟩ := l
  cases tag <;> rfl

section Reading
variable {source : String} {ps : List (Tag × List Char)} (hm : Munched source.toList ps)
include hm

theorem lex_contents :
    (lex source).tokens.map Token.content =
      (tokensOf (placed 1 ps)).map Token.content ++ [(.eof, "", none)] := by
  rw [lex_eq, contents_eq, contents_eq, shape_lexemes hm, shape_placed, List.filterMap_append]
  rfl

theorem lex_causes :
    (lex source).faults.map Fault.cause = (faultsOf (placed 1 ps)).map Fault.cause := by
  rw [lex_eq, causes_eq, causes_eq, shape_lexemes hm, shape_placed, List.filterMap_append]
  exact List.append_nil _

end Reading

def Tag.isToken (t : Tag) : Bool :=
  !t.isTrivia && !t.isFault

theorem contentOf_eq_none {s : Tag × List UInt8} (h : s.1.isToken = false) : contentOf s = none := by
  obtain ⟨tag, bytes⟩ := s
  cases tag with
  | operator o =>
    obtain ⟨ht, hf⟩ := operator_isPlain o
    rw [Tag.isToken, ht, hf] at h
    cases h
  | ident | number | string | eof => cases h
  | _ => rfl

theorem causeOf_eq_none {s : Tag × List UInt8} (h : s.1.isToken = true) : causeOf s = none := by
  obtain ⟨tag, bytes⟩ := s
  cases tag with
  | ident | number | string | operator _ | eof => rfl
  | _ => cases h

theorem wordKind_ne_eof (text : String) : Lexeme.wordKind text ≠ .eof := by
  unfold Lexeme.wordKind
  split <;> exact Kind.noConfusion

theorem contentOf_token {p : Tag × List Char} (h : p.1.isToken = true) (hs : p.1.Spells p.2) :
    ∃ kind literal, kind ≠ .eof ∧
      contentOf (Cursor.encodePiece p) = some (kind, String.ofList p.2, literal) := by
  obtain ⟨tag, word⟩ := p
  have htext : (Lexeme.mk tag (encode word) 0).text = String.ofList word := ofBytes_encode word
  have hcontent {kind : Kind} {literal : Option Literal} {line : UInt32} :
      Token.content ⟨kind, (Lexeme.mk tag (encode word) 0).text, literal, line⟩ =
        (kind, String.ofList word, literal) := by
    rw [Token.content, htext]
  cases tag with
  | ident => exact ⟨_, _, wordKind_ne_eof _, congrArg some hcontent⟩
  | number | string | operator _ => exact ⟨_, _, Kind.noConfusion, congrArg some hcontent⟩
  | eof => exact hs.elim
  | _ => cases h

theorem isTrivia_isOpen_of_isToken {t : Tag} (h : t.isToken = true) :
    t.isTrivia = false ∧ t.isOpen = false := by
  rw [Tag.isToken, Bool.and_eq_true, Bool.not_eq_true', Bool.not_eq_true'] at h
  refine ⟨h.1, ?_⟩
  cases t with
  | unterminatedString | unterminatedBlockComment | malformedBlockComment => cases h.2
  | _ => rfl

def AreTokens (qs : List (Tag × List Char)) : Prop :=
  ∀ q ∈ qs, q.1.isToken = true ∧ q.1.Spells q.2

theorem contents_of_areTokens {qs : List (Tag × List Char)} (h : AreTokens qs) :
    ((qs.map Cursor.encodePiece).filterMap contentOf).map (fun c => c.2.1) =
        qs.map (fun q => String.ofList q.2) ∧
      ∀ c ∈ (qs.map Cursor.encodePiece).filterMap contentOf, c.1 ≠ .eof := by
  induction qs with
  | nil => exact ⟨rfl, List.forall_mem_nil _⟩
  | cons q qs ih =>
    obtain ⟨⟨ht, hs⟩, hqs⟩ := List.forall_mem_cons.mp h
    obtain ⟨hi, hne⟩ := ih hqs
    obtain ⟨kind, literal, hk, hc⟩ := contentOf_token ht hs
    rw [List.map_cons, List.filterMap_cons, hc, List.map_cons, List.map_cons, hi]
    exact ⟨rfl, List.forall_mem_cons.mpr ⟨hk, hne⟩⟩

def tokenWords (ps : List (Tag × List Char)) : List (Tag × List Char) :=
  ps.filter fun p => p.1.isToken

theorem areTokens_tokenWords {text : List Char} {ps : List (Tag × List Char)}
    (hm : Munched text ps) : AreTokens (tokenWords ps) := by
  intro q hq
  obtain ⟨hp, ht⟩ := List.mem_filter.mp hq
  exact ⟨ht, hm.spells q hp⟩

theorem contents_tokenWords (ps : List (Tag × List Char)) :
    ((tokenWords ps).map Cursor.encodePiece).filterMap contentOf =
      (tokensOf (placed 1 ps)).map Token.content := by
  rw [contents_eq, shape_placed, List.filterMap_map, List.filterMap_map, tokenWords,
    List.filterMap_filter]
  congr 1
  funext p
  cases hp : p.1.isToken with
  | true => rfl
  | false => exact (contentOf_eq_none (s := Cursor.encodePiece p) hp).symm

theorem words_content {source : String} {ps : List (Tag × List Char)}
    (hm : Munched source.toList ps) :
    (lex source).words.map Token.content =
      ((tokenWords ps).map Cursor.encodePiece).filterMap contentOf := by
  have hne := (contents_of_areTokens (areTokens_tokenWords hm)).2
  calc
    (lex source).words.map Token.content
        = ((lex source).tokens.map Token.content).filter (fun c => c.1 ≠ .eof) := by
      rw [Lexed.words, List.filter_map]
      rfl
    _ = ((tokenWords ps).map Cursor.encodePiece).filterMap contentOf := by
      rw [lex_contents hm, ← contents_tokenWords, List.filter_append, List.filter_eq_self.mpr]
      · exact List.append_nil _
      · exact fun c hc => decide_eq_true (hne c hc)

/-- The lexemes of a text, other than trivia, are these words. -/
def Reads (text : List Char) (qs : List (Tag × List Char)) : Prop :=
  ∃ ps, Munched text ps ∧ ∀ n, (solid n ps).map Lexeme.shape = qs.map Cursor.encodePiece

theorem reads_nil : Reads [] [] :=
  ⟨[], .nil, fun _ => rfl⟩

theorem Reads.gap {gap text : List Char} {qs : List (Tag × List Char)}
    (hg : ∀ c ∈ gap, isGap c = true) (h : Reads text qs) : Reads (gap ++ text) qs := by
  obtain ⟨ps, hm, hs⟩ := h
  obtain ⟨ps', hm', hs'⟩ := hm.append_gap hg
  refine ⟨ps', hm', fun n => ?_⟩
  rw [hs', hs]

/-- A gap behind a word that makes a token, or the end of the text, keeps the word as it is. -/
theorem Reads.word {t : Tag} {word rest : List Char} {qs : List (Tag × List Char)}
    (ht : t.isToken = true) (hs : t.Spells word) (hr : ∀ c ∈ rest.head?, isGap c = true)
    (h : Reads rest qs) : Reads (word ++ rest) ((t, word) :: qs) := by
  obtain ⟨ps, hm, hps⟩ := h
  obtain ⟨htrivia, hopen⟩ := isTrivia_isOpen_of_isToken ht
  have hself : Longest (word ++ []) t word := by
    rw [List.append_nil]
    exact longest_self hs
  have hends : Alike t [] rest :=
    alike_of_endsAt fun c hc => Or.inr ⟨htrivia, hr c hc⟩
  refine ⟨(t, word) :: ps, .cons rfl (hself.congr hopen hends) hm, fun n => ?_⟩
  rw [solid_cons_solid htrivia, List.map_cons, hps, List.map_cons]
  rfl

theorem reads_of_respaced {words : List String} {text : String} (h : Respaced words text)
    {qs : List (Tag × List Char)} (hw : words = qs.map fun q => String.ofList q.2)
    (hq : AreTokens qs) : Reads text.toList qs := by
  induction h generalizing qs with
  | @blank gap hg =>
    obtain rfl : qs = [] := List.map_eq_nil_iff.mp hw.symm
    have hgap := reads_nil.gap hg
    rwa [List.append_nil] at hgap
  | @last gap word tail hg ht =>
    obtain ⟨q, qs, rfl, rfl, hqs⟩ := List.map_eq_cons_iff.mp hw.symm
    obtain rfl : qs = [] := List.map_eq_nil_iff.mp hqs
    obtain ⟨htoken, hspells⟩ := hq q List.mem_cons_self
    have htail := reads_nil.gap ht
    rw [List.append_nil] at htail
    have hword := (htail.word htoken hspells fun c hc => ht c (List.mem_of_mem_head? hc)).gap hg
    simpa only [String.toList_append, String.toList_ofList, List.append_assoc] using hword
  | @more gap word between text words hg hb hne _ ih =>
    obtain ⟨q, qs, rfl, rfl, hqs⟩ := List.map_eq_cons_iff.mp hw.symm
    obtain ⟨⟨htoken, hspells⟩, hrest⟩ := List.forall_mem_cons.mp hq
    have hbetween := (ih hqs.symm hrest).gap hb
    have hhead : ∀ c ∈ (between.toList ++ text.toList).head?, isGap c = true := by
      obtain ⟨x, xs, hx⟩ := List.exists_cons_of_ne_nil (mt String.toList_eq_nil_iff.mp hne)
      intro c hc
      rw [hx] at hc
      obtain rfl := Option.some.inj hc
      exact hb x (hx ▸ List.mem_cons_self)
    have hword := (hbetween.word htoken hspells hhead).gap hg
    simpa only [String.toList_append, String.toList_ofList, List.append_assoc] using hword

/-- The lexemes of the tokens of any source, in order and with any gaps around and between them, are
read without faults as the same tokens, except for their lines. -/
theorem lex_respaced {source text : String}
    (h : Respaced ((lex source).words.map Token.lexeme) text) :
    (lex text).faults = [] ∧
      (lex text).tokens.map Token.content =
        (lex source).words.map Token.content ++ [(.eof, "", none)] := by
  obtain ⟨ps, hps⟩ := exists_munched source
  have hq : AreTokens (tokenWords ps) := areTokens_tokenWords hps
  have hwords := words_content hps
  -- What the tokens of the source say is what its words say, so the text respaces these words.
  have hlexemes : (lex source).words.map Token.lexeme =
      (tokenWords ps).map fun q => String.ofList q.2 := by
    rw [← (contents_of_areTokens hq).1, ← hwords, List.map_map]
    rfl
  obtain ⟨ps', hm, hshape⟩ := reads_of_respaced h hlexemes hq
  constructor
  · have hcauses : (lex text).faults.map Fault.cause = [] := by
      rw [lex_causes hm, ← faultsOf_solid, causes_eq, hshape, List.filterMap_eq_nil_iff]
      intro s hs
      obtain ⟨q, hmem, rfl⟩ := List.mem_map.mp hs
      exact causeOf_eq_none (hq q hmem).1
    exact List.map_eq_nil_iff.mp hcauses
  · rw [lex_contents hm, ← tokensOf_solid, contents_eq, hshape, hwords]

theorem lex_respaced_adjacent :
    (lex "1/(\"a\n//\"@x").words.map Token.lexeme = ["1", "/", "(", "\"a\n//\"", "x"] ∧
      (lex " 1\t/\n\n(\r\n\"a\n//\" x\n").faults = [] ∧
      (lex " 1\t/\n\n(\r\n\"a\n//\" x\n").tokens.map Token.content =
        (lex "1/(\"a\n//\"@x").words.map Token.content ++ [(.eof, "", none)] := by
  have hwords : (lex "1/(\"a\n//\"@x").words.map Token.lexeme =
      ["1", "/", "(", "\"a\n//\"", "x"] := by
    decide +kernel
  have hgap (gap : String) (h : gap.toList.all isGap = true) : IsGap gap :=
    List.all_eq_true.mp h
  refine ⟨hwords, lex_respaced ?_⟩
  rw [hwords]
  have hx : Respaced ["x"] ("" ++ "x" ++ "\n") :=
    .last (hgap "" (by decide)) (hgap "\n" (by decide))
  have hstring : Respaced ["\"a\n//\"", "x"] _ :=
    .more (hgap "" (by decide)) (hgap " " (by decide)) (by decide) hx
  have hparen : Respaced ["(", "\"a\n//\"", "x"] _ :=
    .more (hgap "" (by decide)) (hgap "\r\n" (by decide)) (by decide) hstring
  have hslash : Respaced ["/", "(", "\"a\n//\"", "x"] _ :=
    .more (hgap "" (by decide)) (hgap "\n\n" (by decide)) (by decide) hparen
  exact .more (hgap " " (by decide)) (hgap "\t" (by decide)) (by decide) hslash

end LoxFront
