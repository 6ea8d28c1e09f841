import LoxFront.Proofs.LongestScan
import LoxFront.Proofs.Slice

namespace LoxFront.Cursor
open Text Lexical

theorem next_of_rest_nil {c : Cursor} (h : c.rest = []) : c.next = (⟨.eof, [], c.line⟩, c) := by
  have hs : c.scan = (.eof, c) := by
    simp only [scan, h]
  simp only [next, hs, Nat.sub_self, List.take_zero]

theorem next_text {c : Cursor} {cs : List Char} (h : c.rest = encode cs) (hne : cs ≠ []) :
    ∃ word rest, cs = word ++ rest ∧ c.Passed (encode word) c.next.2 ∧
      c.next.2.rest = encode rest ∧ c.next.1.bytes = encode word ∧
      Longest cs c.next.1.tag word := by
  obtain ⟨x, xs, rfl⟩ := List.exists_cons_of_ne_nil hne
  obtain ⟨word, hp, hl⟩ := scan_longest h
  obtain ⟨rest, hrest⟩ := hl.starts
  have hd : c.scan.2.rest = encode rest := by
    apply hp.rest_eq
    rw [h, ← hrest, encode_append]
  have hlen : c.scan.2.pos - c.pos = (encode word).length := by
    rw [hp.pos, Nat.add_sub_cancel_left]
  refine ⟨word, rest, hrest.symm, hp, hd, ?_, hl⟩
  change c.rest.take (c.scan.2.pos - c.pos) = encode word
  rw [hlen, hp.rest, List.take_left]

def encodePiece (p : Tag × List Char) : Tag × List UInt8 :=
  (p.1, encode p.2)

theorem encodePiece_injective : Function.Injective encodePiece := by
  intro p q h
  obtain ⟨ht, he⟩ := Prod.mk.inj h
  exact Prod.ext ht (encode_injective he)

/-- The lexemes of a text are its longest words and the end of input. -/
theorem lexemes_text {c : Cursor} {cs : List Char} (h : c.rest = encode cs) :
    ∃ pieces, Munched cs pieces ∧
      c.lexemes.map (fun l => (l.tag, l.bytes)) = pieces.map encodePiece ++ [(.eof, [])] := by
  -- The induction follows the lexemes; each step takes one longest word off the text.
  fun_induction lexemes c generalizing cs with
  | case1 c hnil =>
    have hcs : cs = [] := encode_eq_nil (h.symm.trans hnil)
    refine ⟨[], hcs ▸ .nil, ?_⟩
    rw [next_of_rest_nil hnil]
    rfl
  | case2 c hne ih =>
    have hcs : cs ≠ [] := by
      rintro rfl
      exact hne h
    obtain ⟨word, rest, he, -, hd, hb, hl⟩ := next_text h hcs
    obtain ⟨pieces, hm, hp⟩ := ih hd
    refine ⟨(c.next.1.tag, word) :: pieces, .cons he hl hm, ?_⟩
    rw [List.map_cons, hp, hb, List.map_cons, List.cons_append]
    rfl

theorem munched_iff {c : Cursor} {cs : List Char} (h : c.rest = encode cs)
    (pieces : List (Tag × List Char)) :
    Munched cs pieces ↔
      c.lexemes.map (fun l => (l.tag, l.bytes)) = pieces.map encodePiece ++ [(.eof, [])] := by
  obtain ⟨pieces', hm, hp⟩ := lexemes_text h
  rw [hp, List.append_cancel_right_eq]
  constructor
  · intro hm'
    rw [hm.unique hm']
  · intro he
    rwa [← (List.map_inj_right fun _ _ h => encodePiece_injective h).mp he]

def StandsIn (c : Cursor) (source : String) : Prop :=
  c.rest = (bytes source).drop c.pos

theorem StandsIn.rest_eq {c : Cursor} {before after : String} (h : c.StandsIn (before ++ after))
    (hs : size before = c.pos) : c.rest = encode after.toList := by
  have hdrop : c.rest = (bytes before ++ bytes after).drop (size before) := by
    rw [hs, ← bytes_append]
    exact h
  rw [hdrop]
  exact List.drop_left

theorem StandsIn.passed {c d : Cursor} {source : String} {xs : List UInt8} (h : c.StandsIn source)
    (hp : c.Passed xs d) : d.StandsIn source := by
  have hd : (bytes source).drop c.pos = xs ++ d.rest := h.symm.trans hp.rest
  rw [StandsIn, hp.pos, ← List.drop_drop, hd, List.drop_left]

theorem next_of_isBoundary {source : String} {c : Cursor} (h : c.StandsIn source)
    (hb : IsBoundary source c.pos) (hlt : c.pos < size source) :
    ∃ word, Slice source c.pos (c.pos + c.next.1.len) word ∧ c.next.1.bytes = bytes word ∧
      1 ≤ c.next.1.len ∧ c.next.2.StandsIn source ∧ c.next.2.pos = c.pos + c.next.1.len ∧
      c.next.1.tag.Spells word.toList ∧
      ∀ n longer, c.next.1.len < n → Slice source c.pos (c.pos + n) longer →
        ∀ t, ¬ Tag.Spells t longer.toList := by
  obtain ⟨before, after, rfl, hs⟩ := hb
  have hrest := h.rest_eq hs
  have hne : after.toList ≠ [] := by
    intro he
    rw [size_append, hs, size, bytes_eq_encode, he] at hlt
    exact absurd hlt (Nat.lt_irrefl _)
  obtain ⟨word, rest, he, hp, -, hbytes, hl⟩ := next_text hrest hne
  have hlen : c.next.1.len = (encode word).length := congrArg List.length hbytes
  have hsize : size (String.ofList word) = c.next.1.len := by
    rw [size, bytes_ofList, hlen]
  have hafter : after = String.ofList word ++ String.ofList rest := by
    apply String.toList_injective
    rw [String.toList_append, String.toList_ofList, String.toList_ofList, he]
  refine ⟨String.ofList word, ?_, ?_, ?_, h.passed hp, ?_, ?_, ?_⟩
  · refine ⟨before, String.ofList rest, ?_, hs, by rw [hsize]⟩
    rw [hafter, String.append_assoc]
  · rw [hbytes, bytes_ofList]
  · rw [hlen]
    exact List.length_pos_iff.mpr fun hnil => hl.ne_nil (encode_eq_nil hnil)
  · rw [hp.pos, hlen]
  · rw [String.toList_ofList]
    exact hl.spells
  · rintro n longer hn ⟨before', after', hsrc, hs', hstop⟩ t hsp
    rw [String.append_assoc] at hsrc
    obtain ⟨-, hsuffix⟩ := append_inj hsrc (hs.trans hs'.symm)
    have hpre : longer.toList <+: after.toList := by
      rw [hsuffix, String.toList_append]
      exact List.prefix_append _ _
    have hchars := hl.le t _ hpre hsp
    have hsub := List.prefix_of_prefix_length_le hpre hl.starts hchars
    obtain ⟨ms, hms⟩ := hsub
    have hle := congrArg (fun cs => (encode cs).length) hms
    simp only [encode_append, List.length_append] at hle
    have hbig : size longer = n := by omega
    rw [size, bytes_eq_encode] at hbig
    omega

/-- From every character boundary in front of the end the next lexeme is a word of its tag, and no
tag spells a longer piece. No word has two tags, and a source is cut into longest words in no other
way. -/
theorem next_maximal_munch :
    (∀ (source : String) (c : Cursor), c.StandsIn source → IsBoundary source c.pos →
      c.pos < size source →
      ∃ word, Slice source c.pos (c.pos + c.next.1.len) word ∧ c.next.1.bytes = bytes word ∧
        1 ≤ c.next.1.len ∧ c.next.2.StandsIn source ∧ c.next.2.pos = c.pos + c.next.1.len ∧
        c.next.1.tag.Spells word.toList ∧
        ∀ n longer, c.next.1.len < n → Slice source c.pos (c.pos + n) longer →
          ∀ t, ¬ Tag.Spells t longer.toList) ∧
    (∀ (t t' : Tag) (w : List Char), t.Spells w → t'.Spells w → t = t') ∧
    ∀ (source : String) (pieces : List (Tag × List Char)), Munched source.toList pieces ↔
      (ofText source).lexemes.map (fun l => (l.tag, l.bytes)) =
        pieces.map encodePiece ++ [(.eof, [])] := by
  refine ⟨?_, ?_, ?_⟩
  · intro source c h hb hlt
    exact next_of_isBoundary h hb hlt
  · intro t t' w h h'
    exact eq_of_spells h h'
  · intro source pieces
    exact munched_iff rfl pieces

/-- Behind a letter of two bytes the shortest block comment is read to its end, not as an open one
that ends in a star. -/
theorem next_maximal_munch_comment :
    ∃ word, Slice "é/**/+" 2 6 word ∧ Tag.blockComment.Spells word.toList ∧
      ∀ n longer, 4 < n → Slice "é/**/+" 2 (2 + n) longer →
        ∀ t, ¬ Tag.Spells t longer.toList := by
  obtain ⟨word, hw, -, -, -, -, hs, hl⟩ :=
    next_maximal_munch.1 "é/**/+" ⟨2, [47, 42, 42, 47, 43], 1⟩ (by unfold StandsIn; decide)
      ⟨"é", "/**/+", by decide, by decide⟩ (by decide)
  exact ⟨word, hw, hs, hl⟩

end LoxFront.Cursor
