import LoxFront.Proofs.Tiling

/-! A move over a character goes as far as the byte ahead says. In a text that byte is ASCII, a lead
byte, or inside a character and counted as one byte, so no newline is passed uncounted. -/
namespace LoxFront.Cursor
open Text

/-- A move that counts every newline it passes. Only a skipped class can hold newlines that go
uncounted. -/
def Move.CountsLines : Move → Prop
  | .skipWhile p => p Byte.newline = false
  | _ => True

theorem bounds_of_mem_trail {c : Char} {b : UInt8} (h : b ∈ trail c) : 128 ≤ b ∧ b < 192 := by
  by_cases hc : c.toNat < 128
  · rw [trail_of_ascii hc] at h
    exact absurd h List.not_mem_nil
  · exact (shape_of_not_ascii (Nat.le_of_not_lt hc)).2.2 b h

theorem newline_not_mem_of_high {bs : List UInt8} (h : ∀ b ∈ bs, 128 ≤ b) : Byte.newline ∉ bs := by
  intro hm
  exact absurd (h _ hm) (by decide)

theorem width_of_continuation {b : UInt8} (h : b < 192) : Byte.width b = 1 := by
  rw [UInt8.lt_iff_toNat_lt] at h
  have hb : b.toNat < 192 := h
  rw [width_of_toNat rfl, if_neg (by omega), if_neg (by omega), if_neg (by omega)]

/-- What ends the bytes of a text: continuation bytes, which are there only inside a character, and then
whole characters. -/
theorem exists_of_suffix_encode {cs : List Char} {ahead : List UInt8} (h : ahead <:+ encode cs) :
    ∃ inner ds, ahead = inner ++ encode ds ∧ ∀ b ∈ inner, 128 ≤ b ∧ b < 192 := by
  induction cs with
  | nil => exact ⟨[], [], List.suffix_nil.mp h, nofun⟩
  | cons c cs ih =>
    rw [encode_cons] at h
    rcases List.suffix_cons_iff.mp h with rfl | ⟨behind, hb⟩
    · exact ⟨[], c :: cs, (encode_cons c cs).symm, nofun⟩
    · -- The bytes start among those of the character behind its lead byte, or after all of them.
      rcases List.append_eq_append_iff.mp hb with ⟨inner, htrail, rfl⟩ | ⟨skipped, -, hcs⟩
      · refine ⟨inner, cs, rfl, fun b hi => bounds_of_mem_trail (c := c) ?_⟩
        rw [htrail]
        exact List.mem_append_right behind hi
      · exact ih ⟨skipped, hcs.symm⟩

/-- None of the bytes that the one ahead asks for is a newline, unless it is that one byte. -/
theorem newline_not_mem_take_width {cs : List Char} {ahead : List UInt8} (h : ahead <:+ encode cs)
    (hn : ahead.head? ≠ some Byte.newline) :
    Byte.newline ∉ ahead.take (Byte.width (ahead.headD Byte.endMark)) := by
  obtain ⟨inner, ds, rfl, hi⟩ := exists_of_suffix_encode h
  cases inner with
  | cons x inner =>
    -- Inside a character the byte ahead asks for itself alone.
    have hx := hi x List.mem_cons_self
    rw [List.cons_append, List.headD_cons, width_of_continuation hx.2, List.take_succ_cons,
      List.take_zero]
    exact newline_not_mem_of_high (List.forall_mem_singleton.mpr hx.1)
  | nil =>
    rw [List.nil_append] at hn ⊢
    cases ds with
    | nil => exact List.not_mem_nil
    | cons c ds =>
      rw [encode_cons, List.headD_cons, width_lead, List.take_succ_cons, List.take_left]
      rw [encode_cons, List.head?_cons] at hn
      intro hm
      rcases List.mem_cons.mp hm with hl | ht
      · exact hn (congrArg some hl.symm)
      · exact newline_not_mem_of_high (fun b hb => (bounds_of_mem_trail hb).1) ht

theorem advance_of_rest_nil {c : Cursor} (h : c.rest = []) : c.advance = c := by
  obtain ⟨pos, rest, line⟩ := c
  obtain rfl : rest = [] := h
  rfl

theorem exists_passed_advance (c : Cursor) : ∃ skipped, c.Passed skipped c.advance := by
  cases h : c.rest with
  | nil =>
    rw [advance_of_rest_nil h]
    exact ⟨[], Passed.refl c⟩
  | cons b r => exact ⟨[b], passed_advance h⟩

theorem exists_passed_advanceChar {c : Cursor} {cs : List Char} (h : c.rest <:+ encode cs) :
    ∃ skipped, c.Passed skipped c.advanceChar := by
  unfold advanceChar
  split_ifs with hn
  · exact exists_passed_advance c
  · have hhead : c.rest.head? ≠ some Byte.newline := by
      intro he
      apply hn
      rw [current, List.headD_eq_head?_getD, he]
      rfl
    exact ⟨_, passed_forward (newline_not_mem_take_width h hhead)⟩

theorem exists_passed_move {c : Cursor} {cs : List Char} (h : c.rest <:+ encode cs) {m : Move}
    (hm : m.CountsLines) : ∃ skipped, c.Passed skipped (c.move m) := by
  cases m with
  | advance => exact exists_passed_advance c
  | eat expected =>
    change ∃ skipped, c.Passed skipped ((c.eat? expected).getD c)
    cases he : c.eat? expected with
    | some d =>
      rw [eat?_eq_some he]
      exact exists_passed_advance c
    | none => exact ⟨[], Passed.refl c⟩
  | skipWhile p => exact ⟨_, passed_skipWhile hm⟩
  | advanceChar => exact exists_passed_advanceChar h
  | skipLine => exact ⟨_, passed_skipWhile rfl⟩
  | seek b => exact ⟨_, passed_pass c _⟩
  | seekPair first second =>
    change ∃ skipped, c.Passed skipped (c.seekPair first second).2
    unfold seekPair
    cases pairIdx? first second 0 c.rest with
    | some n => exact ⟨_, passed_pass c n⟩
    | none => exact ⟨_, passed_pass c _⟩

theorem exists_passed_moveAll {c : Cursor} {cs : List Char} (h : c.rest <:+ encode cs)
    {moves : List Move} (hm : ∀ m ∈ moves, m.CountsLines) :
    ∃ skipped, c.Passed skipped (c.moveAll moves) := by
  induction moves generalizing c with
  | nil => exact ⟨[], Passed.refl c⟩
  | cons m moves ih =>
    obtain ⟨hfirst, hrest⟩ := List.forall_mem_cons.mp hm
    obtain ⟨xs, hx⟩ := exists_passed_move h hfirst
    obtain ⟨ys, hy⟩ := ih ((ahead_move c m).rest.trans h) hrest
    exact ⟨xs ++ ys, hx.trans hy⟩

/-- Wherever moves that count their newlines lead in a source, on or off a character boundary, the
line is one more than the newlines behind the position. -/
theorem moveAll_counts_newlines (source : String)
    (hn : (bytes source).count Byte.newline ≤ UInt32.size - 2) (moves : List Move)
    (hm : ∀ m ∈ moves, m.CountsLines) :
    ((ofText source).moveAll moves).StandsIn source ∧
    ((ofText source).moveAll moves).pos ≤ size source ∧
    (∀ more, ((ofText source).moveAll moves).pos ≤ ((ofText source).moveAll (moves ++ more)).pos) ∧
    ((ofText source).moveAll moves).line.toNat =
      1 + ((bytes source).take ((ofText source).moveAll moves).pos).count Byte.newline := by
  refine ⟨standsIn_moveAll source moves, ?_, ?_, ?_⟩
  · have htotal := pos_add_length_moveAll source moves
    omega
  · intro more
    obtain ⟨passed, -, hpos⟩ := (ahead_moveAll ((ofText source).moveAll moves) more).exists_between
    have happend : (ofText source).moveAll (moves ++ more) =
        ((ofText source).moveAll moves).moveAll more := List.foldl_append
    rw [happend, hpos]
    exact Nat.le_add_right _ _
  · obtain ⟨behind, hb⟩ := exists_passed_moveAll (c := ofText source) List.suffix_rfl hm
    have hsource : bytes source = behind ++ ((ofText source).moveAll moves).rest := hb.rest
    have hpos : ((ofText source).moveAll moves).pos = behind.length := hb.pos.trans (Nat.zero_add _)
    have hroom : 1 + behind.count Byte.newline < UInt32.size := by
      have hle : behind.count Byte.newline ≤ (bytes source).count Byte.newline := by
        rw [hsource, List.count_append]
        exact Nat.le_add_right _ _
      have hsize : UInt32.size = 4294967296 := rfl
      omega
    have htake : (bytes source).take behind.length = behind := by
      rw [hsource, List.take_left]
    rw [hpos, htake]
    exact hb.line hroom

/-- A step into a letter of two bytes, the rest of the letter, and a search over the line break. -/
theorem moveAll_counts_newlines_inside :
    (bytes "é\nx").count Byte.newline ≤ UInt32.size - 2 ∧
      (∀ m ∈ [Move.advance, .advanceChar, .seek 120], m.CountsLines) ∧
      ((ofText "é\nx").moveAll [.advance, .advanceChar, .seek 120]).line.toNat =
        1 + ((bytes "é\nx").take
          ((ofText "é\nx").moveAll [.advance, .advanceChar, .seek 120]).pos).count Byte.newline := by
  have hn : (bytes "é\nx").count Byte.newline ≤ UInt32.size - 2 := by
    decide
  have hm : ∀ m ∈ [Move.advance, .advanceChar, .seek 120], m.CountsLines := by
    simp [Move.CountsLines]
  exact ⟨hn, hm, (moveAll_counts_newlines "é\nx" hn _ hm).2.2.2⟩

end LoxFront.Cursor
