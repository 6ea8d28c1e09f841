import LoxFront.Proofs.Contributions

namespace LoxFront
open Text Lexical

def lexemeOf (line : Nat) (p : Tag × List Char) : Lexeme :=
  ⟨p.1, encode p.2, UInt32.ofNat line⟩

/-- The lexemes of a row of words whose first one starts on a given line. -/
def placed : Nat → List (Tag × List Char) → List Lexeme
  | _, [] => []
  | n, p :: ps => lexemeOf (n + p.2.count '\n') p :: placed (n + p.2.count '\n') ps

def newlines (ps : List (Tag × List Char)) : Nat :=
  (ps.flatMap Prod.snd).count '\n'

theorem newlines_cons (p : Tag × List Char) (ps : List (Tag × List Char)) :
    newlines (p :: ps) = p.2.count '\n' + newlines ps := by
  rw [newlines, List.flatMap_cons, List.count_append]
  rfl

theorem placed_append (n : Nat) (ps qs : List (Tag × List Char)) :
    placed n (ps ++ qs) = placed n ps ++ placed (n + newlines ps) qs := by
  induction ps generalizing n with
  | nil => rfl
  | cons p ps ih =>
    rw [List.cons_append, placed, placed, ih, newlines_cons, List.cons_append, Nat.add_assoc]

theorem Lexical.Munched.text_eq {text : List Char} {ps : List (Tag × List Char)}
    (h : Munched text ps) : text = ps.flatMap Prod.snd := by
  induction h with
  | nil => rfl
  | cons he _ _ ih => rw [he, ih, List.flatMap_cons]

theorem Lexical.Munched.spells {text : List Char} {ps : List (Tag × List Char)}
    (h : Munched text ps) : ∀ p ∈ ps, p.1.Spells p.2 := by
  induction h with
  | nil => exact List.forall_mem_nil _
  | cons _ hl _ ih => exact List.forall_mem_cons.mpr ⟨hl.spells, ih⟩

theorem newlines_eq {source : String} {ps : List (Tag × List Char)} (hm : Munched source.toList ps) :
    newlines ps = (bytes source).count Byte.newline := by
  rw [newlines, ← hm.text_eq]
  exact (count_newline_encode source.toList).symm

theorem exists_munched (source : String) : ∃ ps, Munched source.toList ps := by
  have hrest : (Cursor.ofText source).rest = encode source.toList := rfl
  obtain ⟨ps, hm, -⟩ := Cursor.lexemes_text hrest
  exact ⟨ps, hm⟩

/-- The lexemes of a text are its longest words, each on the line that the newlines up to its end
give, and the end of input. -/
theorem Cursor.lexemes_eq_placed {c : Cursor} {cs : List Char} {ps : List (Tag × List Char)}
    (h : c.rest = encode cs) (hm : Munched cs ps)
    (hn : c.line.toNat + cs.count '\n' < UInt32.size) :
    c.lexemes =
      placed c.line.toNat ps ++ [lexemeOf (c.line.toNat + newlines ps) (.eof, [])] := by
  -- Both rows are cut at the same places; the bound keeps the line of the cursor from wrapping.
  fun_induction lexemes c generalizing cs ps with
  | case1 c hnil =>
    obtain rfl : cs = [] := encode_eq_nil (h.symm.trans hnil)
    obtain rfl := hm.eq_nil
    rw [next_of_rest_nil hnil, lexemeOf]
    exact congrArg (fun line => [Lexeme.mk .eof [] line]) UInt32.ofNat_toNat.symm
  | case2 c hne ih =>
    have hcs : cs ≠ [] := by
      rintro rfl
      exact hne h
    obtain ⟨word, rest, he, hp, hd, hb, hl⟩ := next_text h hcs
    cases hm with
    | nil => exact absurd rfl hcs
    | cons he' hl' hm' =>
      obtain ⟨rfl, rfl⟩ := hl.unique hl'
      obtain rfl := List.append_cancel_left (he.symm.trans he')
      have hcount := count_newline_encode word
      rw [he, List.count_append] at hn
      have hline : c.next.2.line.toNat = c.line.toNat + word.count '\n' := by
        rw [← hcount]
        apply hp.line
        omega
      have hfirst : c.next.1 = lexemeOf (c.line.toNat + word.count '\n')
          (c.next.1.tag, word) := by
        rw [lexemeOf, ← hb, ← hline, UInt32.ofNat_toNat]
        rfl
      have htail := ih hd hm' (by omega)
      rw [hline] at htail
      rw [placed, newlines_cons, ← Nat.add_assoc, List.cons_append]
      exact congrArg₂ List.cons hfirst htail

def Lexeme.shape (l : Lexeme) : Tag × List UInt8 :=
  (l.tag, l.bytes)

theorem shape_placed (n : Nat) (ps : List (Tag × List Char)) :
    (placed n ps).map Lexeme.shape = ps.map Cursor.encodePiece := by
  induction ps generalizing n with
  | nil => rfl
  | cons p ps ih =>
    rw [placed, List.map_cons, ih, List.map_cons]
    rfl

theorem shape_lexemes {source : String} {ps : List (Tag × List Char)}
    (hm : Munched source.toList ps) :
    (Cursor.ofText source).lexemes.map Lexeme.shape =
      ps.map Cursor.encodePiece ++ [(.eof, [])] :=
  (Cursor.munched_iff rfl ps).mp hm

def tokensOf (ls : List Lexeme) : List Token :=
  ls.filterMap fun l => l.yield.token?

def faultsOf (ls : List Lexeme) : List Fault :=
  ls.filterMap fun l => l.yield.fault?

theorem lex_eq (source : String) :
    lex source = ⟨tokensOf (Cursor.ofText source).lexemes,
      faultsOf (Cursor.ofText source).lexemes⟩ :=
  lexWith_eq _ () source

theorem tokensOf_append (ls ms : List Lexeme) :
    tokensOf (ls ++ ms) = tokensOf ls ++ tokensOf ms :=
  List.filterMap_append

theorem faultsOf_append (ls ms : List Lexeme) :
    faultsOf (ls ++ ms) = faultsOf ls ++ faultsOf ms :=
  List.filterMap_append

/-- A reading of a source is what its longest words contribute, and the end of input. -/
theorem lex_eq_placed {source : String} {ps : List (Tag × List Char)}
    (hm : Munched source.toList ps)
    (hn : (bytes source).count Byte.newline ≤ UInt32.size - 2) :
    lex source = ⟨tokensOf (placed 1 ps) ++ [Token.eof (UInt32.ofNat (1 + newlines ps))],
      faultsOf (placed 1 ps)⟩ := by
  have hcount : (bytes source).count Byte.newline = source.toList.count '\n' :=
    count_newline_encode source.toList
  have hone : (Cursor.ofText source).line.toNat = 1 := rfl
  have hsize : UInt32.size = 4294967296 := rfl
  have hls := Cursor.lexemes_eq_placed (c := Cursor.ofText source) rfl hm (by omega)
  rw [lex_eq, hls, hone, tokensOf_append, faultsOf_append]
  exact congrArg (Lexed.mk _) (List.append_nil _)

end LoxFront
