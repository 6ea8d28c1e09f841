import LoxFront.Proofs.NewlineJoin
import LoxFront.Proofs.Tiling

namespace LoxFront
open Text Lexical

theorem Yield.item?_eq_inr_iff {y : Yield} {f : Fault} :
    y.item? = some (.inr f) ↔ y.fault? = some f := by
  cases y <;> simp [item?, fault?]

theorem isOpen_of_fault? {l : Lexeme} {f : Fault} (h : l.yield.fault? = some f) :
    l.tag.isOpen = f.cause.isOpen := by
  obtain ⟨tag, bytes, line⟩ := l
  cases tag with
  | invalidChar | unterminatedString | unterminatedBlockComment | malformedBlockComment =>
    obtain rfl := Option.some.inj h
    rfl
  | _ => cases h

namespace Cursor

section Meets
variable {source before piece after : String} {c : Cursor}

theorem Meets.rest_eq_nil_of_isOpen (h : Meets source c before piece after)
    (ho : c.next.1.tag.isOpen = true) : c.next.2.rest = [] := by
  have hrest : c.rest = encode (piece ++ after).toList := h.rest_eq
  by_cases hne : (piece ++ after).toList = []
  · rw [hne] at hrest
    rw [next_of_rest_nil hrest] at ho
    cases ho
  · obtain ⟨word, rest, he, -, hd, -, hl⟩ := next_text hrest hne
    rw [he] at hl
    rw [hd, hl.rest_eq_nil ho]
    rfl

theorem Meets.pos_eq_size (h : Meets source c before piece after) (hc : c.rest = []) :
    c.pos = size source := by
  have hnil : bytes (piece ++ after) = [] := by
    rw [← h.rest_eq, hc]
  calc
    c.pos = (bytes before).length := h.pos_eq
    _ = (bytes before ++ bytes (piece ++ after)).length := by rw [hnil, List.append_nil]
    _ = size source := by rw [← bytes_append, ← String.append_assoc, ← h.source_eq]; rfl

end Meets

theorem isOpen_of_rest_nil {c : Cursor} (h : c.rest = []) : c.next.1.tag.isOpen = false := by
  rw [next_of_rest_nil h]
  rfl

theorem pos_lt_pos_next {c : Cursor} (h : c.rest ≠ []) : c.pos < c.next.2.pos := by
  have hlen := one_le_len_next h
  have hpos := (next_covers c).2
  omega

/-- Behind an open lexeme a reading visits only the end of input, and no lexeme before it is open. -/
theorem visits_eq_of_isOpen {source before rest : String} {c d : Cursor}
    (hs : source = before ++ rest) (hp : (ofText source).Passed (bytes before) c)
    (hd : d ∈ c.visits) (ho : d.next.1.tag.isOpen = true) :
    ∃ init, c.visits = init ++ [d, d.next.2] ∧ d.next.2.rest = [] ∧
      ∀ e ∈ init, e.next.1.tag.isOpen = false := by
  fun_induction visits c generalizing before rest with
  | case1 c h =>
    obtain rfl := List.mem_singleton.mp hd
    exact absurd (isOpen_of_rest_nil h) (by rw [ho]; exact Bool.noConfusion)
  | case2 c h ih =>
    obtain ⟨piece, after, -, hm⟩ := exists_meets hs hp
    have hlast (hc : c.next.1.tag.isOpen = true) : c.next.2.visits = [c.next.2] := by
      rw [visits, if_pos (hm.rest_eq_nil_of_isOpen hc)]
    rcases List.mem_cons.mp hd with rfl | hd
    · refine ⟨[], ?_, hm.rest_eq_nil_of_isOpen ho, List.forall_mem_nil _⟩
      rw [hlast ho, List.nil_append]
    · obtain ⟨init, he, hrest, hinit⟩ := ih hm.source_eq hm.behind hd
      refine ⟨c :: init, by rw [he, List.cons_append], hrest, ?_⟩
      -- If this lexeme were open too, the other one would stand at the end of input.
      have hc : c.next.1.tag.isOpen = false := by
        rw [Bool.eq_false_iff]
        intro hc
        rw [hlast hc] at hd
        rw [List.mem_singleton.mp hd] at ho
        exact absurd (isOpen_of_rest_nil (hm.rest_eq_nil_of_isOpen hc))
          (by rw [ho]; exact Bool.noConfusion)
      exact List.forall_mem_cons.mpr ⟨hc, hinit⟩

end Cursor

/-- A fault at a lexeme that runs on from `start` to the end of a source. -/
structure RunsOn (source : String) (f : Fault) (start : Nat) : Prop where
  located : ⟨start, size source, .inr f⟩ ∈ found source
  proper : start < size source
  last_fault : (lex source).faults.getLast? = some f
  eof_line : (lex source).tokens.getLast? = some (Token.eof f.line)
  only_eof_behind : ∀ g ∈ found source, ∀ t, g.item = .inl t → start ≤ g.start →
    t = Token.eof f.line

section Found
variable {source : String} {f : Fault}

theorem found_eq_of_isOpen (hf : f ∈ (lex source).faults) (ho : f.cause.isOpen = true) :
    ∃ init start, start < size source ∧
      found source = init ++ [⟨start, size source, .inr f⟩,
        ⟨size source, size source, .inl (Token.eof f.line)⟩] ∧
      ∀ g ∈ init, ∀ e, g.item.getRight? = some e → e.cause.isOpen = false := by
  rw [faults_eq] at hf
  obtain ⟨d, hd, hy⟩ := List.mem_filterMap.mp hf
  obtain ⟨hs, hp⟩ := Cursor.passed_ofText source
  obtain ⟨init, hv, hrest, hinit⟩ :=
    Cursor.visits_eq_of_isOpen hs hp hd ((isOpen_of_fault? hy).trans ho)
  have hitem := Yield.item?_eq_inr_iff.mpr hy
  have hline : f.line = d.next.2.line := Lexeme.line_of_item hitem
  have hend : d.next.2.pos = size source := by
    have hmem : d.next.2 ∈ (Cursor.ofText source).visits := by
      rw [hv]
      simp
    obtain ⟨before, piece, after, hm⟩ := Cursor.exists_meets_of_mem hmem
    exact hm.pos_eq_size hrest
  have hlt : d.pos < size source := by
    rw [← hend]
    apply Cursor.pos_lt_pos_next
    intro hnil
    have hclosed := Cursor.isOpen_of_rest_nil hnil
    rw [isOpen_of_fault? hy, ho] at hclosed
    cases hclosed
  have hopen : d.found? = some ⟨d.pos, size source, .inr f⟩ := by
    rw [Cursor.found?, hitem, hend]
    rfl
  have hlast : d.next.2.found? =
      some ⟨size source, size source, .inl (Token.eof f.line)⟩ := by
    rw [Cursor.found?, Cursor.next_of_rest_nil hrest, hend, hline]
    rfl
  refine ⟨init.filterMap Cursor.found?, d.pos, hlt, ?_, ?_⟩
  · rw [found, hv, List.filterMap_append, List.filterMap_cons, hopen, List.filterMap_cons, hlast]
    rfl
  · intro g hg e he
    obtain ⟨c, hc, hfound⟩ := List.mem_filterMap.mp hg
    obtain ⟨item, hi, rfl⟩ := Option.map_eq_some_iff.mp hfound
    obtain rfl : item = .inr e := Sum.getRight?_eq_some_iff.mp he
    rw [← isOpen_of_fault? (Yield.item?_eq_inr_iff.mp hi)]
    exact hinit c hc

theorem start_lt_stop_or_at_end {g : Found} (hg : g ∈ found source) :
    g.start < g.stop ∨ g.start = size source ∧ g.stop = size source := by
  obtain ⟨c, before, piece, after, -, hm, hstart, hstop, -⟩ := mem_found hg
  rw [hstart, hstop]
  by_cases hc : c.rest = []
  · have hpos := hm.pos_eq_size hc
    rw [Cursor.next_of_rest_nil hc]
    exact .inr ⟨hpos, hpos⟩
  · exact .inl (Cursor.pos_lt_pos_next hc)

theorem exists_slice {g : Found} (hg : g ∈ found source) :
    ∃ piece, Slice source g.start g.stop piece ∧ ∀ t, g.item = .inl t → t.lexeme = piece := by
  obtain ⟨c, before, piece, after, -, hm, hstart, hstop, -, htext⟩ := mem_found hg
  rw [hstart, hstop]
  exact ⟨piece, hm.slice, htext⟩

theorem runsOn_of_isOpen (hf : f ∈ (lex source).faults) (ho : f.cause.isOpen = true) :
    ∃ start, RunsOn source f start := by
  obtain ⟨init, start, hlt, he, -⟩ := found_eq_of_isOpen hf ho
  refine ⟨start, by simp [he], hlt, ?_, ?_, ?_⟩
  · rw [faults_eq_found, he, List.filterMap_append]
    exact List.getLast?_concat
  · rw [tokens_eq_found, he, List.filterMap_append]
    exact List.getLast?_concat
  · intro g hg t ht hle
    have hpair := found_pairwise source
    have hmem := hg
    rw [he] at hpair hmem
    rcases List.mem_append.mp hmem with hinit | hend
    · -- What is found before stops where the open lexeme starts, or in front of that.
      have hstop : g.stop ≤ start :=
        ((List.pairwise_append.mp hpair).2.2 g hinit _ List.mem_cons_self).1
      have hcases := start_lt_stop_or_at_end hg
      omega
    · rcases List.mem_cons.mp hend with rfl | hlast
      · cases ht
      · obtain rfl := List.mem_singleton.mp hlast
        exact (Sum.inl.inj ht).symm

theorem length_filter_isOpen_le (source : String) :
    ((lex source).faults.filter fun f => f.cause.isOpen).length ≤ 1 := by
  by_cases h : ∃ f ∈ (lex source).faults, f.cause.isOpen = true
  · obtain ⟨f, hf, ho⟩ := h
    obtain ⟨init, start, -, he, hinit⟩ := found_eq_of_isOpen hf ho
    have hfaults : (lex source).faults = init.filterMap (fun g => g.item.getRight?) ++ [f] := by
      rw [faults_eq_found, he, List.filterMap_append]
      rfl
    have hnone :
        (init.filterMap fun g => g.item.getRight?).filter (fun e => e.cause.isOpen) = [] := by
      rw [List.filter_eq_nil_iff]
      intro e hmem
      obtain ⟨g, hg, hr⟩ := List.mem_filterMap.mp hmem
      rw [hinit g hg e hr]
      exact Bool.false_ne_true
    rw [hfaults, List.filter_append, hnone, List.nil_append]
    exact List.length_filter_le _ [f]
  · have hnone : (lex source).faults.filter (fun f => f.cause.isOpen) = [] := by
      rw [List.filter_eq_nil_iff]
      intro f hf ho
      exact h ⟨f, hf, ho⟩
    rw [hnone]
    exact Nat.zero_le 1

end Found

/-- At most one thing found in a source is a lexeme that is not closed. Its fault is the last one,
and only the end of input starts inside it or behind it. -/
theorem open_lexeme_last (source : String) :
    (lex source).tokens = (found source).filterMap (fun g => g.item.getLeft?) ∧
    (lex source).faults = (found source).filterMap (fun g => g.item.getRight?) ∧
    (∀ g ∈ found source, ∃ piece, Slice source g.start g.stop piece ∧
      ∀ t, g.item = .inl t → t.lexeme = piece) ∧
    ((lex source).faults.filter fun f => f.cause.isOpen).length ≤ 1 ∧
    ∀ f ∈ (lex source).faults, f.cause.isOpen = true → ∃ start, RunsOn source f start :=
  ⟨tokens_eq_found source, faults_eq_found source, fun _ => exists_slice,
    length_filter_isOpen_le source, fun _ => runsOn_of_isOpen⟩

/-- Behind a character that no token starts with, a closed string and a comment that is not closed. -/
theorem open_lexeme_last_comment :
    (⟨2, .unterminatedComment⟩ : Fault) ∈ (lex "@\n\"a\"/* é").faults ∧
      Cause.unterminatedComment.isOpen = true ∧
      ∃ start, RunsOn "@\n\"a\"/* é" ⟨2, .unterminatedComment⟩ start := by
  have hmem : (⟨2, .unterminatedComment⟩ : Fault) ∈ (lex "@\n\"a\"/* é").faults := by
    decide +kernel
  obtain ⟨-, -, -, -, h⟩ := open_lexeme_last "@\n\"a\"/* é"
  exact ⟨hmem, rfl, h _ hmem rfl⟩

end LoxFront
