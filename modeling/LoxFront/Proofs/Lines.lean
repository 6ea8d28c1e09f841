import LoxFront.Proofs.Contributions

namespace LoxFront
open Text

/-- A token or a fault of a source, with the positions at which its lexeme starts and stops. -/
structure Found where
  start : Nat
  stop : Nat
  item : Token ⊕ Fault

def Found.line (f : Found) : UInt32 :=
  f.item.elim Token.line Fault.line

theorem Found.line_of_token {f : Found} {t : Token} (h : f.item.getLeft? = some t) :
    f.line = t.line := by
  rw [line, Sum.getLeft?_eq_some_iff.mp h]
  rfl

theorem Found.line_of_fault {f : Found} {e : Fault} (h : f.item.getRight? = some e) :
    f.line = e.line := by
  rw [line, Sum.getRight?_eq_some_iff.mp h]
  rfl

def Yield.item? : Yield → Option (Token ⊕ Fault)
  | nothing => none
  | token t => some (.inl t)
  | fault f => some (.inr f)

def Cursor.found? (c : Cursor) : Option Found :=
  c.next.1.yield.item?.map fun item => ⟨c.pos, c.next.2.pos, item⟩

/-- The tokens and the faults of a source, merged in source order. -/
def found (source : String) : List Found :=
  (Cursor.ofText source).visits.filterMap Cursor.found?

theorem tokens_eq_found (source : String) :
    (lex source).tokens = (found source).filterMap fun f => f.item.getLeft? := by
  rw [tokens_eq, found, List.filterMap_filterMap]
  congr 1
  funext c
  unfold Cursor.found?
  cases c.next.1.yield <;> rfl

theorem faults_eq_found (source : String) :
    (lex source).faults = (found source).filterMap fun f => f.item.getRight? := by
  rw [faults_eq, found, List.filterMap_filterMap]
  congr 1
  funext c
  unfold Cursor.found?
  cases c.next.1.yield <;> rfl

theorem Lexeme.line_of_item {l : Lexeme} {item : Token ⊕ Fault} (h : l.yield.item? = some item) :
    item.elim Token.line Fault.line = l.line := by
  unfold Lexeme.yield at h
  split at h
  all_goals first
    | (obtain rfl := Option.some.inj h; rfl)
    | cases h

theorem Lexeme.lexeme_of_item {l : Lexeme} {t : Token} (h : l.yield.item? = some (.inl t))
    (ht : l.tag ≠ .eof) : t.lexeme = l.text := by
  unfold Lexeme.yield at h
  split at h
  all_goals first
    | (obtain rfl := Sum.inl.inj (Option.some.inj h); rfl)
    | contradiction
    | cases h

theorem mem_found {source : String} {f : Found} (h : f ∈ found source) :
    ∃ c before piece after, c ∈ (Cursor.ofText source).visits ∧
      Cursor.Meets source c before piece after ∧ f.start = c.pos ∧ f.stop = c.next.2.pos ∧
      f.line = c.next.2.line ∧ ∀ t, f.item = .inl t → t.lexeme = piece := by
  obtain ⟨c, hc, hf⟩ := List.mem_filterMap.mp h
  obtain ⟨before, piece, after, hm⟩ := Cursor.exists_meets_of_mem hc
  obtain ⟨item, hi, rfl⟩ := Option.map_eq_some_iff.mp hf
  refine ⟨c, before, piece, after, hc, hm, rfl, rfl, Lexeme.line_of_item hi, ?_⟩
  rintro t rfl
  by_cases ht : c.next.1.tag = .eof
  · -- Only the token at the end of input does not copy the text of its lexeme.
    have htok : t = Token.eof c.next.1.line := by
      simp only [Lexeme.yield, ht, Yield.item?] at hi
      exact (Sum.inl.inj (Option.some.inj hi)).symm
    rcases hm.tag with hs | ⟨-, hp, -⟩
    · rw [ht] at hs
      exact hs.elim
    · rw [htok, hp]
      rfl
  · rw [Lexeme.lexeme_of_item hi ht, hm.text_eq]

theorem Cursor.Meets.line_eq {source before piece after : String} {c : Cursor}
    (h : Meets source c before piece after)
    (hn : (bytes source).count Byte.newline ≤ UInt32.size - 2) :
    c.next.2.line.toNat = 1 + ((bytes source).take c.next.2.pos).count Byte.newline := by
  have hle : ((bytes source).take c.next.2.pos).count Byte.newline ≤
      (bytes source).count Byte.newline :=
    (List.take_sublist _ _).count_le _
  rw [h.take_eq] at hle ⊢
  apply h.behind.line
  change 1 + (bytes (before ++ piece)).count Byte.newline < UInt32.size
  have hsize : UInt32.size = 4294967296 := rfl
  omega

theorem found_pairwise (source : String) :
    (found source).Pairwise fun f g => f.stop ≤ g.start ∧ g.start ≤ g.stop := by
  obtain ⟨hs, hp⟩ := Cursor.passed_ofText source
  have hv := Cursor.visits_pairwise hs hp
  apply List.Pairwise.filterMap Cursor.found? _ hv
  intro c d hcd f hf g hg
  obtain ⟨i, -, rfl⟩ := Option.map_eq_some_iff.mp hf
  obtain ⟨j, -, rfl⟩ := Option.map_eq_some_iff.mp hg
  exact hcd

theorem exists_found_eq_append (source : String) :
    ∃ init line, found source = init ++ [⟨size source, size source, .inl (Token.eof line)⟩] := by
  obtain ⟨init, d, hv, hrest⟩ := Cursor.exists_visits_eq_append (Cursor.ofText source)
  have hd : d ∈ (Cursor.ofText source).visits := by
    rw [hv]
    exact List.mem_append_right init (List.mem_singleton_self d)
  obtain ⟨before, piece, after, hm⟩ := Cursor.exists_meets_of_mem hd
  have hnext := Cursor.next_of_rest_nil hrest
  have hpos : d.pos = size source := by
    have hnil : bytes (piece ++ after) = [] := by
      rw [← hm.rest_eq, hrest]
    rw [hm.pos_eq, hm.source_eq, String.append_assoc]
    change _ = (bytes (before ++ (piece ++ after))).length
    rw [bytes_append, hnil, List.append_nil]
    rfl
  refine ⟨init.filterMap Cursor.found?, d.next.1.line, ?_⟩
  have hlast : d.found? = some ⟨size source, size source, .inl (Token.eof d.next.1.line)⟩ := by
    rw [← hpos]
    unfold Cursor.found?
    rw [hnext]
    rfl
  rw [found, hv, List.filterMap_append, List.filterMap_cons, hlast]
  rfl

section Count
variable {source : String} (hn : (bytes source).count Byte.newline ≤ UInt32.size - 2)
include hn

theorem line_of_mem_found {f : Found} (hf : f ∈ found source) :
    f.line.toNat = 1 + ((bytes source).take f.stop).count Byte.newline := by
  obtain ⟨c, before, piece, after, -, hm, -, hstop, hline, -⟩ := mem_found hf
  rw [hline, hstop]
  exact hm.line_eq hn

theorem found_lines_sorted : (found source).Pairwise fun f g => f.line ≤ g.line := by
  apply (found_pairwise source).imp_of_mem
  intro f g hf hg hfg
  have hstop : f.stop ≤ g.stop := Nat.le_trans hfg.1 hfg.2
  have htake : ((bytes source).take f.stop).count Byte.newline ≤
      ((bytes source).take g.stop).count Byte.newline :=
    ((List.take_prefix_take_left hstop).sublist).count_le _
  apply UInt32.le_iff_toNat_le.mpr
  calc
    _ = 1 + ((bytes source).take f.stop).count Byte.newline := line_of_mem_found hn hf
    _ ≤ 1 + ((bytes source).take g.stop).count Byte.newline := Nat.add_le_add_left htake 1
    _ = _ := (line_of_mem_found hn hg).symm

theorem token_lines_sorted : (lex source).tokens.Pairwise fun t u => t.line ≤ u.line := by
  rw [tokens_eq_found]
  apply List.Pairwise.filterMap _ _ (found_lines_sorted hn)
  intro f g hfg t ht u hu
  rwa [Found.line_of_token ht, Found.line_of_token hu] at hfg

theorem fault_lines_sorted : (lex source).faults.Pairwise fun e e' => e.line ≤ e'.line := by
  rw [faults_eq_found]
  apply List.Pairwise.filterMap _ _ (found_lines_sorted hn)
  intro f g hfg e he e' he'
  rwa [Found.line_of_fault he, Found.line_of_fault he'] at hfg

theorem eof_line {init : List Found} {line : UInt32}
    (h : found source = init ++ [⟨size source, size source, .inl (Token.eof line)⟩]) :
    line.toNat = 1 + (bytes source).count Byte.newline := by
  have hmem : ⟨size source, size source, .inl (Token.eof line)⟩ ∈ found source := by
    rw [h]
    exact List.mem_append_right init (List.mem_singleton_self _)
  have hline := line_of_mem_found hn hmem
  have htake : (bytes source).take (size source) = bytes source := List.take_length
  rwa [htake] at hline

end Count

/-- Every token and every fault of a source is on the line on which its lexeme stops, and the lines of
the tokens, of the faults, and of both in source order never decrease. -/
theorem lines_count_newlines (source : String)
    (hn : (bytes source).count Byte.newline ≤ UInt32.size - 2) :
    (lex source).tokens = (found source).filterMap (fun f => f.item.getLeft?) ∧
    (lex source).faults = (found source).filterMap (fun f => f.item.getRight?) ∧
    (∀ f ∈ found source,
      f.line.toNat = 1 + ((bytes source).take f.stop).count Byte.newline ∧
      ∃ piece, Slice source f.start f.stop piece ∧ ∀ t, f.item = .inl t → t.lexeme = piece) ∧
    (∃ init line, (lex source).tokens = init ++ [Token.eof line] ∧
      line.toNat = 1 + (bytes source).count Byte.newline) ∧
    (found source).Pairwise (fun f g => f.stop ≤ g.start) ∧
    (lex source).tokens.Pairwise (fun t u => t.line ≤ u.line) ∧
    (lex source).faults.Pairwise (fun e e' => e.line ≤ e'.line) ∧
    (found source).Pairwise (fun f g => f.line ≤ g.line) := by
  refine ⟨tokens_eq_found source, faults_eq_found source, ?_, ?_, ?_, token_lines_sorted hn,
    fault_lines_sorted hn, found_lines_sorted hn⟩
  · intro f hf
    refine ⟨line_of_mem_found hn hf, ?_⟩
    obtain ⟨c, before, piece, after, -, hm, hstart, hstop, -, hpiece⟩ := mem_found hf
    refine ⟨piece, ?_, hpiece⟩
    rw [hstart, hstop]
    exact hm.slice
  · obtain ⟨init, line, he⟩ := exists_found_eq_append source
    refine ⟨init.filterMap fun f => f.item.getLeft?, line, ?_, eof_line hn he⟩
    rw [tokens_eq_found, he, List.filterMap_append]
    rfl
  · exact (found_pairwise source).imp fun hfg => hfg.1

/-- A string that runs over a line break puts the end of input on the third line. -/
theorem lines_count_newlines_string :
    (bytes "a\n\"b\nc\"@").count Byte.newline ≤ UInt32.size - 2 ∧
      ∃ init line, (lex "a\n\"b\nc\"@").tokens = init ++ [Token.eof line] ∧ line.toNat = 3 := by
  have hcount : (bytes "a\n\"b\nc\"@").count Byte.newline = 2 := by
    decide
  have hn : (bytes "a\n\"b\nc\"@").count Byte.newline ≤ UInt32.size - 2 := by
    rw [hcount]
    decide
  obtain ⟨init, line, ht, hline⟩ := (lines_count_newlines "a\n\"b\nc\"@" hn).2.2.2.1
  rw [hcount] at hline
  exact ⟨hn, init, line, ht, hline⟩

end LoxFront
