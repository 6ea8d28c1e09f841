import LoxFront.Proofs.Visits

namespace LoxFront.Cursor
open Text Lexical

theorem size_ofList (cs : List Char) : size (String.ofList cs) = (encode cs).length := by
  rw [size, bytes_ofList]

theorem slice_quoted (body : List Char) :
    Slice (String.ofList ('"' :: (body ++ ['"']))) 1 (1 + (encode body).length)
      (String.ofList body) := by
  refine ⟨"\"", "\"", ?_, by decide, by rw [size_ofList]⟩
  apply String.toList_injective
  simp only [String.toList_append, String.toList_ofList]
  rfl

theorem encode_quoted (body : List Char) :
    encode ('"' :: (body ++ ['"'])) = Byte.quote :: (encode body ++ [Byte.quote]) := by
  rw [encode_cons, encode_append]
  rfl

theorem Meets.exists_body {source before piece after : String} {c : Cursor}
    (h : Meets source c before piece after) (ht : c.next.1.tag = .string) :
    ∃ body : List Char, '"' ∉ body ∧ c.next.1.text = String.ofList ('"' :: (body ++ ['"'])) ∧
      c.next.1.len = (encode body).length + 2 ∧ c.next.1.quoted = String.ofList body := by
  have hs := h.spells (by rw [ht]; decide)
  rw [ht] at hs
  obtain ⟨body, hbody, hb⟩ := hs
  have hbytes : c.next.1.bytes = Byte.quote :: (encode body ++ [Byte.quote]) := by
    rw [h.bytes_eq, bytes_eq_encode, hb, encode_quoted]
  refine ⟨body, hbody, ?_, ?_, ?_⟩
  · rw [h.text_eq, ← hb, String.ofList_toList]
  · rw [Lexeme.len, hbytes, List.length_cons, List.length_append]
    rfl
  · rw [Lexeme.quoted, hbytes, List.tail_cons, List.dropLast_concat, ofBytes_encode]

theorem Meets.string_spec {source before piece after : String} {c : Cursor}
    (h : Meets source c before piece after) (ht : c.next.1.tag = .string) :
    2 ≤ c.next.1.len ∧ Slice c.next.1.text 1 (c.next.1.len - 1) c.next.1.quoted := by
  obtain ⟨body, -, htext, hlen, hquoted⟩ := h.exists_body ht
  rw [htext, hlen, hquoted]
  refine ⟨by omega, ?_⟩
  have hstop : (encode body).length + 2 - 1 = 1 + (encode body).length := by omega
  rw [hstop]
  exact slice_quoted body

theorem Meets.invalidChar_spec {source before piece after : String} {c : Cursor}
    (h : Meets source c before piece after) (ht : c.next.1.tag = .invalidChar) :
    ∃ x : Char, c.next.1.text.toList = [x] ∧ c.next.1.bytes = String.utf8EncodeChar x ∧
      c.next.1.yield = .fault ⟨c.next.1.line, .unexpectedCharacter x⟩ := by
  have hs := h.spells (by rw [ht]; decide)
  rw [ht] at hs
  obtain ⟨x, hx, -⟩ := hs
  have htext : c.next.1.text.toList = [x] := by
    rw [h.text_eq, hx]
  refine ⟨x, htext, ?_, ?_⟩
  · rw [h.bytes_eq, bytes_eq_encode, hx, encode_singleton]
  · have hchar : c.next.1.char = x := by
      rw [Lexeme.char, htext, List.headD_cons]
    simp only [Lexeme.yield, ht, hchar]

/-- Each lexeme of a source starts and ends at a character boundary, a string can be cut out of its
quotes, and an invalid character is the whole character that its fault names. -/
theorem lexemes_hold_whole_characters (source : String) :
    (ofText source).lexemes = (ofText source).visits.map (fun c => c.next.1) ∧
    ∀ c ∈ (ofText source).visits,
      IsBoundary source c.pos ∧ IsBoundary source (c.pos + c.next.1.len) ∧
      c.next.2.pos = c.pos + c.next.1.len ∧
      Slice source c.pos (c.pos + c.next.1.len) c.next.1.text ∧
      bytes c.next.1.text = c.next.1.bytes ∧
      (c.next.1.tag = .string →
        2 ≤ c.next.1.len ∧ Slice c.next.1.text 1 (c.next.1.len - 1) c.next.1.quoted) ∧
      (c.next.1.tag = .invalidChar →
        ∃ x : Char, c.next.1.text.toList = [x] ∧ c.next.1.bytes = String.utf8EncodeChar x ∧
          c.next.1.yield = .fault ⟨c.next.1.line, .unexpectedCharacter x⟩) := by
  refine ⟨lexemes_eq_map_visits _, ?_⟩
  intro c hc
  obtain ⟨before, piece, after, hm⟩ := exists_meets_of_mem hc
  have hstop : c.next.2.pos = c.pos + c.next.1.len := by
    rw [hm.stop_eq, hm.len_eq]
  have hslice : Slice source c.pos (c.pos + c.next.1.len) c.next.1.text := by
    rw [hm.text_eq, ← hstop]
    exact hm.slice
  refine ⟨hslice.isBoundary.1, hslice.isBoundary.2, hstop, hslice, ?_, ?_, ?_⟩
  · rw [hm.text_eq, hm.bytes_eq]
  · exact fun ht => hm.string_spec ht
  · exact fun ht => hm.invalidChar_spec ht

end LoxFront.Cursor
