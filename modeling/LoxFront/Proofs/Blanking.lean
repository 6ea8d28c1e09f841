import LoxFront.Proofs.Gaps

namespace LoxFront
open Text Lexical

def Lexeme.blanked (l : Lexeme) : String :=
  match l.tag with
  | .blockComment => " " ++ String.ofList (List.replicate (l.text.toList.count '\n') '\n')
  | .lineComment | .invalidChar => " "
  | _ => l.text

/-- A source with blanks in the places of its comments and unexpected characters. -/
def blanked (source : String) : String :=
  String.join ((Cursor.ofText source).lexemes.map Lexeme.blanked)

def Cause.isUnexpectedCharacter : Cause → Bool
  | unexpectedCharacter _ => true
  | _ => false

def Tag.isInert : Tag → Bool
  | blockComment | lineComment | invalidChar => true
  | _ => false

def blank (p : Tag × List Char) : List Char :=
  match p.1 with
  | .blockComment => ' ' :: List.replicate (p.2.count '\n') '\n'
  | .lineComment | .invalidChar => [' ']
  | _ => p.2

theorem blank_eq_cons {p : Tag × List Char} (h : p.1.isInert = true) :
    ∃ cs, blank p = ' ' :: cs := by
  obtain ⟨t, word⟩ := p
  cases t with
  | blockComment | lineComment | invalidChar => exact ⟨_, rfl⟩
  | _ => cases h

theorem blank_eq_word {p : Tag × List Char} (h : p.1.isInert = false) : blank p = p.2 := by
  obtain ⟨t, word⟩ := p
  cases t with
  | blockComment | lineComment | invalidChar => cases h
  | _ => rfl

theorem count_blank {t : Tag} {word : List Char} (hs : t.Spells word) :
    (blank (t, word)).count '\n' = word.count '\n' := by
  cases t with
  | blockComment =>
    rw [blank, List.count_cons_of_ne (by decide), List.count_replicate_self]
  | lineComment =>
    obtain ⟨body, hb, rfl⟩ := hs
    rw [List.count_cons_of_ne (by decide), List.count_cons_of_ne (by decide),
      List.count_eq_zero_of_not_mem hb]
    rfl
  | invalidChar =>
    obtain ⟨c, rfl, hc⟩ := hs
    have hne : c ≠ '\n' := by
      rintro rfl
      exact hc .newline [] rfl
    rw [List.count_cons_of_ne hne]
    rfl
  | _ => rfl

theorem isGap_of_mem_blank {t : Tag} {word : List Char} (ht : t.isTrivia = true ∨ t = .invalidChar)
    (hs : t.Spells word) : ∀ c ∈ blank (t, word), isGap c = true := by
  cases t with
  | whitespace => exact fun c hc => Bool.or_eq_true_iff.mpr (Or.inl (hs.2 c hc))
  | newline =>
    obtain rfl : word = ['\n'] := hs
    exact List.forall_mem_singleton.mpr rfl
  | lineComment | invalidChar => exact List.forall_mem_singleton.mpr rfl
  | blockComment =>
    refine List.forall_mem_cons.mpr ⟨rfl, fun c hc => ?_⟩
    rw [List.eq_of_mem_replicate hc]
    rfl
  | operator o =>
    rcases ht with ht | ht
    · rw [(operator_isPlain o).1] at ht
      cases ht
    · cases ht
  | _ => rcases ht with ht | ht <;> cases ht

theorem count_flatMap_blank {text : List Char} {ps : List (Tag × List Char)}
    (h : Munched text ps) : (ps.flatMap blank).count '\n' = newlines ps := by
  induction h with
  | nil => rfl
  | cons _ hl _ ih =>
    rw [List.flatMap_cons, List.count_append, count_blank hl.spells, ih, newlines_cons]

/-- In front of a blanked text, a word that makes a token sees what it saw before, or a blank. -/
theorem alike_blank {t : Tag} (ht : t.isTrivia = false) {rest : List Char}
    {ps : List (Tag × List Char)} (h : Munched rest ps) : Alike t rest (ps.flatMap blank) := by
  induction h with
  | nil => exact alike_of_endsAt fun c hc => absurd hc (Option.not_mem_none c)
  | @cons text word rest t' ps he _ _ ih =>
    rw [List.flatMap_cons]
    cases hi : t'.isInert with
    | true =>
      obtain ⟨cs, hcs⟩ := blank_eq_cons (p := (t', word)) hi
      apply alike_of_endsAt
      intro c hc
      rw [hcs] at hc
      obtain rfl := Option.some.inj hc
      exact Or.inr ⟨ht, rfl⟩
    | false =>
      rw [blank_eq_word (p := (t', word)) hi, he]
      exact ih.append word

/-- A blanked text is cut into the same words as before, apart from gaps and unexpected characters. -/
theorem Lexical.Munched.exists_blanked {text : List Char} {ps : List (Tag × List Char)}
    (h : Munched text ps) :
    ∃ ps', Munched (ps.flatMap blank) ps' ∧
      ∀ n, solid n ps' = (solid n ps).filter fun l => l.tag ≠ .invalidChar := by
  induction h with
  | nil => exact ⟨[], .nil, fun _ => rfl⟩
  | @cons text word rest t ps he hl hm ih =>
    obtain ⟨ps', hm', hs'⟩ := ih
    rw [List.flatMap_cons]
    by_cases hgap : t.isTrivia = true ∨ t = .invalidChar
    · obtain ⟨ps₁, hm₁, hs₁⟩ := hm'.append_gap (isGap_of_mem_blank hgap hl.spells)
      refine ⟨ps₁, hm₁, fun n => ?_⟩
      rw [hs₁, hs', count_blank hl.spells]
      rcases hgap with ht | rfl
      · rw [solid_cons_trivia ht]
      · rw [solid_cons_solid rfl, List.filter_cons_of_neg]
        simp [lexemeOf]
    · obtain ⟨ht, hne⟩ := not_or.mp hgap
      have ht : t.isTrivia = false := Bool.eq_false_iff.mpr ht
      have hinert : t.isInert = false := by
        cases t with
        | lineComment | blockComment => cases ht
        | invalidChar => exact absurd rfl hne
        | _ => rfl
      have hlong : Longest (word ++ ps.flatMap blank) t word := by
        subst he
        cases ho : t.isOpen with
        | false => exact hl.congr ho (alike_blank ht hm)
        | true =>
          obtain rfl := hl.rest_eq_nil ho
          obtain rfl := hm.eq_nil
          exact hl
      rw [blank_eq_word (p := (t, word)) hinert]
      refine ⟨(t, word) :: ps', .cons rfl hlong hm', fun n => ?_⟩
      rw [solid_cons_solid ht, solid_cons_solid ht, hs', List.filter_cons_of_pos]
      exact decide_eq_true hne

theorem tokensOf_filter (ls : List Lexeme) :
    tokensOf (ls.filter fun l => l.tag ≠ .invalidChar) = tokensOf ls := by
  rw [tokensOf, List.filterMap_filter]
  congr 1
  funext l
  obtain ⟨tag, bytes, line⟩ := l
  cases tag <;> rfl

theorem faultsOf_filter (ls : List Lexeme) :
    faultsOf (ls.filter fun l => l.tag ≠ .invalidChar) =
      (faultsOf ls).filter fun f => !f.cause.isUnexpectedCharacter := by
  rw [faultsOf, faultsOf, List.filterMap_filter, List.filter_filterMap]
  congr 1
  funext l
  obtain ⟨tag, bytes, line⟩ := l
  cases tag <;> rfl

theorem toList_blanked_word (t : Tag) (word : List Char) :
    (Lexeme.mk t (encode word) 0).blanked.toList = blank (t, word) := by
  have htext : (Lexeme.mk t (encode word) 0).text = String.ofList word := ofBytes_encode word
  have hblank : " ".toList = [' '] := by decide
  cases t with
  | blockComment =>
    rw [Lexeme.blanked, htext, String.toList_append, hblank, String.toList_ofList,
      String.toList_ofList]
    rfl
  | lineComment | invalidChar => exact hblank
  | _ => exact (congrArg String.toList htext).trans String.toList_ofList

section Source
variable {source : String} {ps : List (Tag × List Char)} (hm : Munched source.toList ps)
include hm

theorem toList_join_lexemes (f : Tag × List UInt8 → String) (hf : f (Tag.eof, []) = "") :
    (String.join ((Cursor.ofText source).lexemes.map fun l => f l.shape)).toList =
      ps.flatMap fun p => (f (Cursor.encodePiece p)).toList := by
  have hmap : (Cursor.ofText source).lexemes.map (fun l => f l.shape) =
      (ps.map Cursor.encodePiece ++ [(Tag.eof, [])]).map f := by
    rw [← shape_lexemes hm, List.map_map]
    rfl
  rw [hmap, String.toList_join, List.map_append, List.flatMap_append, List.map_map,
    List.flatMap_map, List.map_singleton, hf]
  exact List.append_nil _

theorem toList_blanked : (blanked source).toList = ps.flatMap blank := by
  have hjoin := toList_join_lexemes hm (fun s => (Lexeme.mk s.1 s.2 0).blanked) (by decide +kernel)
  refine hjoin.trans ?_
  congr 1
  funext p
  exact toList_blanked_word p.1 p.2

theorem join_lexemes_text :
    String.join ((Cursor.ofText source).lexemes.map Lexeme.text) = source := by
  have hjoin := toList_join_lexemes hm (fun s => ofBytes s.2) (by decide +kernel)
  apply String.toList_injective
  calc
    _ = ps.flatMap fun p => (ofBytes (encode p.2)).toList := hjoin
    _ = ps.flatMap Prod.snd := by
      congr 1
      funext p
      rw [ofBytes_encode, String.toList_ofList]
    _ = source.toList := hm.text_eq.symm

end Source

/-- With a blank for each comment and each unexpected character, and the newlines of a comment
behind it, a source has the same tokens on the same lines and the faults that are not about
unexpected characters. -/
theorem lex_blanked {source : String}
    (hn : (bytes source).count Byte.newline ≤ UInt32.size - 2) :
    String.join ((Cursor.ofText source).lexemes.map Lexeme.text) = source ∧
      (lex (blanked source)).tokens = (lex source).tokens ∧
      (lex (blanked source)).faults =
        (lex source).faults.filter fun f => !f.cause.isUnexpectedCharacter := by
  obtain ⟨ps, hm⟩ := exists_munched source
  obtain ⟨ps', hm', hs⟩ := hm.exists_blanked
  have hlines : newlines ps' = newlines ps := by
    rw [newlines, ← hm'.text_eq, count_flatMap_blank hm]
  rw [← toList_blanked hm] at hm'
  have hn' : (bytes (blanked source)).count Byte.newline ≤ UInt32.size - 2 := by
    rwa [← newlines_eq hm', hlines, newlines_eq hm]
  refine ⟨join_lexemes_text hm, ?_, ?_⟩
  · rw [lex_eq_placed hm' hn', lex_eq_placed hm hn, hlines, ← tokensOf_solid, hs, tokensOf_filter,
      tokensOf_solid]
  · rw [lex_eq_placed hm' hn', lex_eq_placed hm hn, ← faultsOf_solid, hs, faultsOf_filter,
      faultsOf_solid]

theorem lex_blanked_comments :
    (bytes "1/**\n*/.2@é//\n\"a//").count Byte.newline ≤ UInt32.size - 2 ∧
      blanked "1/**\n*/.2@é//\n\"a//" = "1 \n.2   \n\"a//" ∧
      String.join ((Cursor.ofText "1/**\n*/.2@é//\n\"a//").lexemes.map Lexeme.text) =
        "1/**\n*/.2@é//\n\"a//" ∧
      (lex (blanked "1/**\n*/.2@é//\n\"a//")).tokens = (lex "1/**\n*/.2@é//\n\"a//").tokens ∧
      (lex (blanked "1/**\n*/.2@é//\n\"a//")).faults =
        (lex "1/**\n*/.2@é//\n\"a//").faults.filter fun f => !f.cause.isUnexpectedCharacter := by
  have hn : (bytes "1/**\n*/.2@é//\n\"a//").count Byte.newline ≤ UInt32.size - 2 := by
    decide +kernel
  exact ⟨hn, by decide +kernel, lex_blanked hn⟩

end LoxFront
