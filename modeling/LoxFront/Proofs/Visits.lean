import LoxFront.Lexed
import LoxFront.Proofs.MaximalMunch

namespace LoxFront
open Text Lexical

namespace Cursor

def visits (c : Cursor) : List Cursor :=
  if c.rest = [] then [c] else c :: visits c.next.2
termination_by c.rest.length
decreasing_by exact length_rest_next_lt c ‹_›

theorem lexemes_eq_map_visits (c : Cursor) : c.lexemes = c.visits.map fun d => d.next.1 := by
  fun_induction visits c with
  | case1 c h => rw [lexemes, if_pos h, List.map_singleton]
  | case2 c h ih => rw [lexemes, if_neg h, List.map_cons, ih]

/-- What lies around a cursor: the text behind it, the piece that the next lexeme covers, and the
text after that piece. Only at the end of input the lexeme covers nothing. -/
structure Meets (source : String) (c : Cursor) (before piece after : String) : Prop where
  source_eq : source = before ++ piece ++ after
  here : (ofText source).Passed (bytes before) c
  behind : (ofText source).Passed (bytes (before ++ piece)) c.next.2
  bytes_eq : c.next.1.bytes = bytes piece
  tag : c.next.1.tag.Spells piece.toList ∨ c.next.1.tag = .eof ∧ piece = "" ∧ after = ""

/-- A cursor that has passed a whole number of characters meets a whole number of characters. -/
theorem exists_meets {source before rest : String} {c : Cursor} (hs : source = before ++ rest)
    (hp : (ofText source).Passed (bytes before) c) :
    ∃ piece after, rest = piece ++ after ∧ Meets source c before piece after := by
  have hrest : c.rest = encode rest.toList := by
    apply hp.rest_eq
    rw [hs]
    exact bytes_append before rest
  -- At the end the lexeme is empty; in front of a character it is the longest word there.
  by_cases hne : rest.toList = []
  · have hempty : rest = "" := String.toList_injective hne
    have hnil : c.rest = [] := by
      rw [hrest, hne, encode_nil]
    have hnext := next_of_rest_nil hnil
    refine ⟨"", "", by rw [hempty]; rfl, ?_, hp, ?_, ?_, ?_⟩
    · rw [hs, hempty, String.append_empty, String.append_empty]
    · rw [hnext, String.append_empty]
      exact hp
    · rw [hnext]
      rfl
    · rw [hnext]
      exact Or.inr ⟨rfl, rfl, rfl⟩
  · obtain ⟨word, tail, he, hpass, -, hb, hl⟩ := next_text hrest hne
    have hcut : rest = String.ofList word ++ String.ofList tail := by
      apply String.toList_injective
      rw [String.toList_append, String.toList_ofList, String.toList_ofList, he]
    refine ⟨String.ofList word, String.ofList tail, hcut, ?_, hp, ?_, ?_, Or.inl ?_⟩
    · rw [hs, hcut, String.append_assoc]
    · rw [bytes_append, bytes_ofList]
      exact hp.trans hpass
    · rw [hb, bytes_ofList]
    · rw [String.toList_ofList]
      exact hl.spells

theorem meets_of_mem_visits {source : String} {c d : Cursor} {before rest : String}
    (hs : source = before ++ rest) (hp : (ofText source).Passed (bytes before) c)
    (hd : d ∈ c.visits) : ∃ b p a, Meets source d b p a := by
  fun_induction visits c generalizing before rest with
  | case1 c h =>
    obtain rfl := List.mem_singleton.mp hd
    obtain ⟨piece, after, -, hm⟩ := exists_meets hs hp
    exact ⟨before, piece, after, hm⟩
  | case2 c h ih =>
    obtain ⟨piece, after, -, hm⟩ := exists_meets hs hp
    rcases List.mem_cons.mp hd with rfl | hd
    · exact ⟨before, piece, after, hm⟩
    · exact ih hm.source_eq hm.behind hd

theorem passed_ofText (source : String) :
    source = "" ++ source ∧ (ofText source).Passed (bytes "") (ofText source) :=
  ⟨String.empty_append.symm, Passed.refl _⟩

theorem exists_meets_of_mem {source : String} {c : Cursor} (h : c ∈ (ofText source).visits) :
    ∃ before piece after, Meets source c before piece after := by
  obtain ⟨hs, hp⟩ := passed_ofText source
  exact meets_of_mem_visits hs hp h

section Meets
variable {source before piece after : String} {c : Cursor}

theorem Meets.pos_eq (h : Meets source c before piece after) : c.pos = size before := by
  rw [h.here.pos]
  exact Nat.zero_add _

theorem Meets.stop_eq (h : Meets source c before piece after) :
    c.next.2.pos = c.pos + size piece := by
  rw [h.behind.pos, h.pos_eq, bytes_append, List.length_append]
  exact Nat.zero_add _

theorem Meets.len_eq (h : Meets source c before piece after) : c.next.1.len = size piece :=
  congrArg List.length h.bytes_eq

theorem Meets.text_eq (h : Meets source c before piece after) : c.next.1.text = piece := by
  rw [Lexeme.text, h.bytes_eq, ofBytes_bytes]

theorem Meets.slice (h : Meets source c before piece after) :
    Slice source c.pos c.next.2.pos piece :=
  ⟨before, after, h.source_eq, h.pos_eq.symm, h.stop_eq.symm⟩

theorem Meets.spells (h : Meets source c before piece after) (ht : c.next.1.tag ≠ .eof) :
    c.next.1.tag.Spells piece.toList :=
  h.tag.resolve_right fun he => ht he.1

theorem Meets.take_eq (h : Meets source c before piece after) :
    (bytes source).take c.next.2.pos = bytes (before ++ piece) := by
  have hlen : c.next.2.pos = (bytes (before ++ piece)).length := by
    rw [h.behind.pos]
    exact Nat.zero_add _
  rw [hlen, h.source_eq, bytes_append _ after, List.take_left]

theorem Meets.rest_eq (h : Meets source c before piece after) : c.rest = bytes (piece ++ after) := by
  apply h.here.rest_eq
  rw [h.source_eq, String.append_assoc]
  exact bytes_append _ _

theorem Meets.tag_ne_eof (h : Meets source c before piece after) (hc : c.rest ≠ []) :
    c.next.1.tag ≠ .eof := by
  rcases h.tag with hs | ⟨-, rfl, rfl⟩
  · intro he
    rw [he] at hs
    exact hs.elim
  · exact absurd h.rest_eq hc

end Meets

section Order
variable {source before rest : String} {c : Cursor}

theorem le_of_mem_visits (hs : source = before ++ rest)
    (hp : (ofText source).Passed (bytes before) c) {d : Cursor} (hd : d ∈ c.visits) :
    c.pos ≤ d.pos ∧ d.pos ≤ d.next.2.pos := by
  fun_induction visits c generalizing before rest with
  | case1 c h =>
    obtain rfl := List.mem_singleton.mp hd
    rw [next_of_rest_nil h]
    exact ⟨Nat.le_refl _, Nat.le_refl _⟩
  | case2 c h ih =>
    obtain ⟨piece, after, -, hm⟩ := exists_meets hs hp
    have hle : c.pos ≤ c.next.2.pos := by
      rw [hm.stop_eq]
      exact Nat.le_add_right _ _
    rcases List.mem_cons.mp hd with rfl | hd
    · exact ⟨Nat.le_refl _, hle⟩
    · have hi := ih hm.source_eq hm.behind hd
      exact ⟨Nat.le_trans hle hi.1, hi.2⟩

/-- Each lexeme stops before the next one starts. -/
theorem visits_pairwise (hs : source = before ++ rest)
    (hp : (ofText source).Passed (bytes before) c) :
    c.visits.Pairwise fun d e => d.next.2.pos ≤ e.pos ∧ e.pos ≤ e.next.2.pos := by
  fun_induction visits c generalizing before rest with
  | case1 c h => exact List.pairwise_singleton _ _
  | case2 c h ih =>
    obtain ⟨piece, after, -, hm⟩ := exists_meets hs hp
    apply List.pairwise_cons.mpr
    exact ⟨fun e he => le_of_mem_visits hm.source_eq hm.behind he, ih hm.source_eq hm.behind⟩

theorem exists_visits_eq_append (c : Cursor) : ∃ init d, c.visits = init ++ [d] ∧ d.rest = [] := by
  fun_induction visits c with
  | case1 c h => exact ⟨[], c, rfl, h⟩
  | case2 c h ih =>
    obtain ⟨init, d, he, hd⟩ := ih
    exact ⟨c :: init, d, by rw [he, List.cons_append], hd⟩

end Order

end Cursor

end LoxFront
