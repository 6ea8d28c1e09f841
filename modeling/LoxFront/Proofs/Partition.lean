import LoxFront.Proofs.Contributions
import LoxFront.Proofs.WholeCharacters

namespace LoxFront
open Text Lexical

inductive CauseOf : Tag → String → Cause → Prop where
  | invalidChar {piece : String} {x : Char} : piece = String.singleton x →
    CauseOf .invalidChar piece (.unexpectedCharacter x)
  | unterminatedString {piece : String} :
    CauseOf .unterminatedString piece .unterminatedString
  | unterminatedBlockComment {piece : String} :
    CauseOf .unterminatedBlockComment piece .unterminatedComment
  | malformedBlockComment {piece : String} :
    CauseOf .malformedBlockComment piece .malformedCommentClose

/-- Kind and value of a token with a given tag and text. A word is a keyword if it is spelled like
one and a name otherwise, and a string stands for its text without the first and the last byte. -/
inductive MeaningOf : Tag → String → Kind → Option Literal → Prop where
  | keyword {text : String} {k : Keyword} : text = k.spelling →
    MeaningOf .ident text (.keyword k) none
  | identifier {text : String} : (∀ k : Keyword, text ≠ k.spelling) →
    MeaningOf .ident text .identifier none
  | number {text : String} :
    MeaningOf .number text .number (some (.number ((Binary64.ofText? text).getD Binary64.nan)))
  | string {text body : String} : Slice text 1 (size text - 1) body →
    MeaningOf .string text .string (some (.text body))
  | operator {text : String} {o : Operator} :
    MeaningOf (.operator o) text (.operator o) none

structure FaultOf (source : String) (c : Cursor) (f : Fault) : Prop where
  line : f.line = c.next.1.line
  cause : ∃ piece, Slice source c.pos c.next.2.pos piece ∧ CauseOf c.next.1.tag piece f.cause

/-- The token of the lexeme in front of a cursor. Its text is the piece of source that the lexeme
covers. -/
structure TokenOf (source : String) (c : Cursor) (t : Token) : Prop where
  line : t.line = c.next.1.line
  lexeme : Slice source c.pos c.next.2.pos t.lexeme
  meaning : MeaningOf c.next.1.tag t.lexeme t.kind t.literal

/-- What the lexemes from a cursor up to the end of input give, by the class of their tags. -/
inductive Gives (source : String) : Cursor → List Token → List Fault → Prop where
  | trivia {c : Cursor} {ts : List Token} {fs : List Fault} : c.next.1.tag.isTrivia = true →
    Gives source c.next.2 ts fs → Gives source c ts fs
  | fault {c : Cursor} {f : Fault} {ts : List Token} {fs : List Fault} :
    c.next.1.tag.isFault = true → FaultOf source c f → Gives source c.next.2 ts fs →
      Gives source c ts (f :: fs)
  | token {c : Cursor} {t : Token} {ts : List Token} {fs : List Fault} :
    c.next.1.tag.isTrivia = false → c.next.1.tag.isFault = false → c.next.1.tag ≠ .eof →
      TokenOf source c t → Gives source c.next.2 ts fs → Gives source c (t :: ts) fs
  | eof {c : Cursor} : c.next.1.tag = .eof → Gives source c [⟨.eof, "", none, c.next.1.line⟩] []

theorem CauseOf.unique {t : Tag} {piece : String} {a b : Cause} (ha : CauseOf t piece a)
    (hb : CauseOf t piece b) : a = b := by
  cases ha with
  | invalidChar hx =>
    cases hb with
    | invalidChar hy =>
      have hs := congrArg String.toList (hx.symm.trans hy)
      rw [String.toList_singleton, String.toList_singleton] at hs
      rw [(List.cons.inj hs).1]
  | unterminatedString => cases hb; rfl
  | unterminatedBlockComment => cases hb; rfl
  | malformedBlockComment => cases hb; rfl

theorem spelling_injective {k k' : Keyword} (h : k.spelling = k'.spelling) : k = k' := by
  have hk := Keyword.ofText?_spelling k
  rw [h, Keyword.ofText?_spelling] at hk
  exact (Option.some.inj hk).symm

theorem MeaningOf.unique {t : Tag} {text : String} {k k' : Kind} {l l' : Option Literal}
    (h : MeaningOf t text k l) (h' : MeaningOf t text k' l') : k = k' ∧ l = l' := by
  cases h with
  | keyword hs =>
    cases h' with
    | keyword hs' => exact ⟨by rw [spelling_injective (hs.symm.trans hs')], rfl⟩
    | identifier hn => exact absurd hs (hn _)
  | identifier hn =>
    cases h' with
    | keyword hs' => exact absurd hs' (hn _)
    | identifier _ => exact ⟨rfl, rfl⟩
  | number => cases h'; exact ⟨rfl, rfl⟩
  | string hb =>
    cases h' with
    | string hb' => exact ⟨rfl, by rw [hb.unique hb']⟩
  | operator => cases h'; exact ⟨rfl, rfl⟩

theorem MeaningOf.kind_ne_eof {t : Tag} {text : String} {k : Kind} {l : Option Literal}
    (h : MeaningOf t text k l) : k ≠ .eof := by
  rintro rfl
  cases h

theorem FaultOf.unique {source : String} {c : Cursor} {f g : Fault} (hf : FaultOf source c f)
    (hg : FaultOf source c g) : f = g := by
  obtain ⟨line, cause⟩ := f
  obtain ⟨line', cause'⟩ := g
  obtain rfl : line = line' := hf.line.trans hg.line.symm
  obtain ⟨piece, hp, hc⟩ := hf.cause
  obtain ⟨piece', hp', hc'⟩ := hg.cause
  obtain rfl := hp.unique hp'
  obtain rfl : cause = cause' := hc.unique hc'
  rfl

theorem TokenOf.unique {source : String} {c : Cursor} {t u : Token} (ht : TokenOf source c t)
    (hu : TokenOf source c u) : t = u := by
  obtain ⟨kind, text, literal, line⟩ := t
  obtain ⟨kind', text', literal', line'⟩ := u
  obtain rfl : line = line' := ht.line.trans hu.line.symm
  obtain rfl : text = text' := ht.lexeme.unique hu.lexeme
  obtain ⟨hk, hl⟩ := ht.meaning.unique hu.meaning
  obtain rfl : kind = kind' := hk
  obtain rfl : literal = literal' := hl
  rfl

theorem Gives.unique {source : String} {c : Cursor} {ts us : List Token} {fs gs : List Fault}
    (h : Gives source c ts fs) (h' : Gives source c us gs) : ts = us ∧ fs = gs := by
  have hte {t : Tag} (ht : t.isTrivia = true) (he : t = .eof) : False := by
    rw [he] at ht
    exact absurd ht (by decide)
  have hfe {t : Tag} (ht : t.isFault = true) (he : t = .eof) : False := by
    rw [he] at ht
    exact absurd ht (by decide)
  have htf {t : Tag} (ht : t.isTrivia = true) (hf : t.isFault = true) : False := by
    simp only [Tag.isTrivia, Tag.isFault, Bool.and_eq_true, decide_eq_true_eq] at ht hf
    omega
  -- The class of the tag fixes which rule both walks use next, so the induction is on one of them.
  induction h generalizing us gs with
  | trivia ht hg ih =>
    cases h' with
    | trivia _ hg' => exact ih hg'
    | fault hf _ _ => exact (htf ht hf).elim
    | token hn _ _ _ _ => exact absurd ht (by rw [hn]; exact Bool.false_ne_true)
    | eof he => exact (hte ht he).elim
  | fault hf hof hg ih =>
    cases h' with
    | trivia ht _ => exact (htf ht hf).elim
    | fault _ hof' hg' =>
      obtain ⟨rfl, rfl⟩ := ih hg'
      exact ⟨rfl, by rw [hof.unique hof']⟩
    | token _ hn _ _ _ => exact absurd hf (by rw [hn]; exact Bool.false_ne_true)
    | eof he => exact (hfe hf he).elim
  | token hnt hnf hne hof hg ih =>
    cases h' with
    | trivia ht _ => exact absurd ht (by rw [hnt]; exact Bool.false_ne_true)
    | fault hf _ _ => exact absurd hf (by rw [hnf]; exact Bool.false_ne_true)
    | token _ _ _ hof' hg' =>
      obtain ⟨rfl, rfl⟩ := ih hg'
      exact ⟨by rw [hof.unique hof'], rfl⟩
    | eof he => exact absurd he hne
  | eof he =>
    cases h' with
    | trivia ht _ => exact (hte ht he).elim
    | fault hf _ _ => exact (hfe hf he).elim
    | token _ _ hne _ _ => exact absurd he hne
    | eof _ => exact ⟨rfl, rfl⟩

section Step
variable {source before piece after : String} {c : Cursor} {ts : List Token} {fs : List Fault}

theorem meaningOf_word (text : String) : MeaningOf .ident text (Lexeme.wordKind text) none := by
  unfold Lexeme.wordKind
  cases hk : Keyword.ofText? text with
  | some k => exact .keyword (Keyword.ofText?_eq_some_iff.mp hk)
  | none =>
    apply MeaningOf.identifier
    intro k he
    rw [Keyword.ofText?_eq_some_iff.mpr he] at hk
    cases hk

theorem gives_trivia (ht : c.next.1.tag.isTrivia = true) (hy : c.next.1.yield = .nothing)
    (hg : Gives source c.next.2 ts fs) :
    Gives source c (c.next.1.yield.token?.toList ++ ts) (c.next.1.yield.fault?.toList ++ fs) := by
  rw [hy]
  exact .trivia ht hg

theorem gives_fault (hm : Cursor.Meets source c before piece after)
    (ht : c.next.1.tag.isFault = true) {cause : Cause}
    (hy : c.next.1.yield = .fault ⟨c.next.1.line, cause⟩) (hc : CauseOf c.next.1.tag piece cause)
    (hg : Gives source c.next.2 ts fs) :
    Gives source c (c.next.1.yield.token?.toList ++ ts) (c.next.1.yield.fault?.toList ++ fs) := by
  rw [hy]
  exact .fault ht ⟨rfl, piece, hm.slice, hc⟩ hg

theorem gives_token (hm : Cursor.Meets source c before piece after)
    (ht : c.next.1.tag.isTrivia = false ∧ c.next.1.tag.isFault = false ∧ c.next.1.tag ≠ .eof)
    {kind : Kind} {literal : Option Literal}
    (hy : c.next.1.yield = .token ⟨kind, c.next.1.text, literal, c.next.1.line⟩)
    (hk : MeaningOf c.next.1.tag c.next.1.text kind literal) (hg : Gives source c.next.2 ts fs) :
    Gives source c (c.next.1.yield.token?.toList ++ ts) (c.next.1.yield.fault?.toList ++ fs) := by
  rw [hy]
  refine .token ht.1 ht.2.1 ht.2.2 ⟨rfl, ?_, hk⟩ hg
  rw [hm.text_eq]
  exact hm.slice

/-- The step of the walk: a lexeme in front of the end of input adds what it yields. -/
theorem gives_step (hm : Cursor.Meets source c before piece after) (hne : c.next.1.tag ≠ .eof)
    (hg : Gives source c.next.2 ts fs) :
    Gives source c (c.next.1.yield.token?.toList ++ ts) (c.next.1.yield.fault?.toList ++ fs) := by
  cases ht : c.next.1.tag with
  | whitespace | newline | lineComment | blockComment =>
    apply gives_trivia _ _ hg
    · rw [ht]
      decide
    · simp only [Lexeme.yield, ht]
  | unterminatedString | unterminatedBlockComment | malformedBlockComment =>
    apply gives_fault hm (by rw [ht]; decide) (by simp only [Lexeme.yield, ht]; rfl) _ hg
    rw [ht]
    constructor
  | invalidChar =>
    obtain ⟨x, hx, -, hy⟩ := hm.invalidChar_spec ht
    apply gives_fault hm (by rw [ht]; decide) hy _ hg
    rw [ht]
    apply CauseOf.invalidChar
    apply String.toList_injective
    rw [← hm.text_eq, hx, String.toList_singleton]
  | ident =>
    apply gives_token hm (by rw [ht]; decide) (by simp only [Lexeme.yield, ht]; rfl) _ hg
    rw [ht]
    exact meaningOf_word _
  | number =>
    apply gives_token hm (by rw [ht]; decide) (by simp only [Lexeme.yield, ht]; rfl) _ hg
    rw [ht]
    exact .number
  | string =>
    apply gives_token hm (by rw [ht]; decide) (by simp only [Lexeme.yield, ht]; rfl) _ hg
    rw [ht]
    apply MeaningOf.string
    have hsize : size c.next.1.text = c.next.1.len := by
      rw [hm.text_eq, hm.len_eq]
    rw [hsize]
    exact (hm.string_spec ht).2
  | operator o =>
    refine gives_token hm ?_ (by simp only [Lexeme.yield, ht]; rfl) ?_ hg
    · rw [ht]
      exact ⟨(operator_isPlain o).1, (operator_isPlain o).2, fun he => by cases he⟩
    · rw [ht]
      exact .operator
  | eof => exact absurd ht hne

end Step

theorem gives_visits {source before rest : String} {c : Cursor} (hs : source = before ++ rest)
    (hp : (Cursor.ofText source).Passed (bytes before) c) :
    Gives source c (c.visits.filterMap fun d => d.next.1.yield.token?)
      (c.visits.filterMap fun d => d.next.1.yield.fault?) := by
  fun_induction Cursor.visits c generalizing before rest with
  | case1 c h =>
    have hnext := Cursor.next_of_rest_nil h
    have hy : c.next.1.yield = .token ⟨.eof, "", none, c.next.1.line⟩ := by
      rw [hnext]
      rfl
    have ht : c.next.1.tag = .eof := by
      rw [hnext]
    rw [filterMap_cons_toList, filterMap_cons_toList, hy]
    exact .eof ht
  | case2 c h ih =>
    obtain ⟨piece, after, -, hm⟩ := Cursor.exists_meets hs hp
    rw [filterMap_cons_toList, filterMap_cons_toList]
    exact gives_step hm (hm.tag_ne_eof h) (ih hm.source_eq hm.behind)

theorem Gives.eof_last {source : String} {c : Cursor} {ts : List Token} {fs : List Fault}
    (h : Gives source c ts fs) :
    ∃ init line, ts = init ++ [⟨.eof, "", none, line⟩] ∧ ∀ t ∈ init, t.kind ≠ .eof := by
  induction h with
  | trivia _ _ ih => exact ih
  | fault _ _ _ ih => exact ih
  | token _ _ _ hof _ ih =>
    obtain ⟨init, line, rfl, hall⟩ := ih
    refine ⟨_ :: init, line, rfl, List.forall_mem_cons.mpr ⟨?_, hall⟩⟩
    exact hof.meaning.kind_ne_eof
  | eof _ => exact ⟨[], _, rfl, List.forall_mem_nil _⟩

/-- A reading is exactly the partition of the lexemes of its source: the walk over them gives its
tokens and its faults and no other lists, and the end of input is its last token and only that. -/
theorem lex_partitions_lexemes (source : String) :
    (∀ ts fs, Gives source (Cursor.ofText source) ts fs ↔
      ts = (lex source).tokens ∧ fs = (lex source).faults) ∧
    ∃ init line, (lex source).tokens = init ++ [⟨.eof, "", none, line⟩] ∧
      ∀ t ∈ init, t.kind ≠ .eof := by
  have hg : Gives source (Cursor.ofText source) (lex source).tokens (lex source).faults := by
    obtain ⟨hs, hp⟩ := Cursor.passed_ofText source
    rw [tokens_eq, faults_eq]
    exact gives_visits hs hp
  refine ⟨?_, hg.eof_last⟩
  intro ts fs
  constructor
  · intro h
    exact h.unique hg
  · rintro ⟨rfl, rfl⟩
    exact hg

end LoxFront
