import LoxFront.Lexeme.Scan
import Mathlib.Tactic.Common

/-! Whatever the bytes, a move takes some off the front and adds their number to the position. -/
namespace LoxFront.Cursor

/-- The ways in which a cursor can be moved. The predicate of `skipWhile` may accept any byte, the
newline and the end mark among them. -/
inductive Move where
  | advance
  | eat (expected : UInt8)
  | skipWhile (p : UInt8 → Bool)
  | advanceChar
  | skipLine
  | seek (b : UInt8)
  | seekPair (first second : UInt8)

/-- The cursor after a move. A byte that is not the expected one is not eaten. -/
def move (c : Cursor) : Move → Cursor
  | .advance => c.advance
  | .eat expected => (c.eat? expected).getD c
  | .skipWhile p => c.skipWhile p
  | .advanceChar => c.advanceChar
  | .skipLine => c.skipLine
  | .seek b => (c.seek b).2
  | .seekPair first second => (c.seekPair first second).2

def moveAll (c : Cursor) (moves : List Move) : Cursor :=
  moves.foldl move c

/-- `d` stands in the same bytes as `c`, at the same place or further on. -/
structure Ahead (c d : Cursor) : Prop where
  rest : d.rest <:+ c.rest
  total : d.pos + d.rest.length = c.pos + c.rest.length

theorem Ahead.refl (c : Cursor) : c.Ahead c :=
  ⟨List.suffix_rfl, rfl⟩

theorem Ahead.trans {c d e : Cursor} (h : c.Ahead d) (h' : d.Ahead e) : c.Ahead e :=
  ⟨h'.rest.trans h.rest, h'.total.trans h.total⟩

theorem Ahead.exists_between {c d : Cursor} (h : c.Ahead d) :
    ∃ bytes, c.rest = bytes ++ d.rest ∧ d.pos = c.pos + bytes.length := by
  obtain ⟨bytes, hb⟩ := h.rest
  refine ⟨bytes, hb.symm, ?_⟩
  have hlen : bytes.length + d.rest.length = c.rest.length := by
    rw [← hb, List.length_append]
  have htotal := h.total
  omega

theorem ahead_forward (c : Cursor) (n : Nat) : c.Ahead (c.forward n) := by
  refine ⟨List.drop_suffix n c.rest, ?_⟩
  change c.pos + (c.rest.take n).length + (c.rest.drop n).length = c.pos + c.rest.length
  rw [List.length_take, List.length_drop]
  omega

-- A line takes no part in `Ahead`, so the moves that count newlines go as far as `forward`.

theorem ahead_advance (c : Cursor) : c.Ahead c.advance :=
  ⟨(ahead_forward c 1).rest, (ahead_forward c 1).total⟩

theorem ahead_pass (c : Cursor) (n : Nat) : c.Ahead (c.pass n) :=
  ⟨(ahead_forward c n).rest, (ahead_forward c n).total⟩

theorem ahead_eat? {c d : Cursor} {b : UInt8} (h : c.eat? b = some d) : c.Ahead d := by
  rw [eat?_eq_some h]
  exact ahead_advance c

theorem ahead_skipWhile (c : Cursor) (p : UInt8 → Bool) : c.Ahead (c.skipWhile p) :=
  ahead_forward c _

theorem ahead_advanceChar (c : Cursor) : c.Ahead c.advanceChar := by
  unfold advanceChar
  split_ifs
  · exact ahead_advance c
  · exact ahead_forward c _

theorem ahead_seek (c : Cursor) (b : UInt8) : c.Ahead (c.seek b).2 :=
  ahead_pass c _

theorem ahead_seekPair (c : Cursor) (first second : UInt8) :
    c.Ahead (c.seekPair first second).2 := by
  unfold seekPair
  cases pairIdx? first second 0 c.rest with
  | some n => exact ahead_pass c n
  | none => exact ahead_pass c _

theorem ahead_move (c : Cursor) (m : Move) : c.Ahead (c.move m) := by
  cases m with
  | advance => exact ahead_advance c
  | eat expected =>
    change c.Ahead ((c.eat? expected).getD c)
    cases h : c.eat? expected with
    | some d => exact ahead_eat? h
    | none => exact Ahead.refl c
  | skipWhile p => exact ahead_skipWhile c p
  | advanceChar => exact ahead_advanceChar c
  | skipLine => exact ahead_skipWhile c _
  | seek b => exact ahead_seek c b
  | seekPair first second => exact ahead_seekPair c first second

theorem ahead_moveAll (c : Cursor) (moves : List Move) : c.Ahead (c.moveAll moves) := by
  induction moves generalizing c with
  | nil => exact Ahead.refl c
  | cons m moves ih => exact (ahead_move c m).trans (ih (c.move m))

theorem ahead_finishNumber (c : Cursor) : c.Ahead c.finishNumber := by
  have hw := ahead_skipWhile c Byte.isDigit
  unfold finishNumber
  simp only
  split_ifs
  · have ha := ahead_advance (c.skipWhile Byte.isDigit)
    exact (hw.trans ha).trans (ahead_skipWhile _ _)
  · exact hw

theorem ahead_finishString (c : Cursor) : c.Ahead c.finishString.2 := by
  have hs := ahead_seek c Byte.quote
  unfold finishString
  generalize c.seek Byte.quote = s at hs ⊢
  obtain ⟨found, d⟩ := s
  cases found with
  | true => exact hs.trans (ahead_advance d)
  | false => exact hs

theorem ahead_finishBlock (c : Cursor) : c.Ahead c.finishBlock.2 := by
  have hs := ahead_seekPair c Byte.star Byte.slash
  unfold finishBlock
  generalize c.seekPair Byte.star Byte.slash = s at hs ⊢
  obtain ⟨found, d⟩ := s
  cases found with
  | true => exact (hs.trans (ahead_advance d)).trans (ahead_advance d.advance)
  | false =>
    simp only
    split_ifs
    · exact hs
    · exact hs

theorem ahead_finishSlash (c : Cursor) : c.Ahead c.finishSlash.2 := by
  unfold finishSlash
  cases hs : c.eat? Byte.slash with
  | some d => exact (ahead_eat? hs).trans (ahead_skipWhile d _)
  | none =>
    cases ht : c.eat? Byte.star with
    | some d => exact (ahead_eat? ht).trans (ahead_finishBlock d)
    | none => exact Ahead.refl c

theorem ahead_finishPaired (c : Cursor) (plain withEquals : Operator) :
    c.Ahead (c.finishPaired plain withEquals).2 := by
  unfold finishPaired
  cases h : c.eat? Byte.equals with
  | some d => exact ahead_eat? h
  | none => exact Ahead.refl c

theorem ahead_scan (c : Cursor) : c.Ahead c.scan.2 := by
  have ha := ahead_advance c
  unfold scan
  split
  · exact Ahead.refl c
  · split_ifs
    · exact ha.trans (ahead_skipWhile _ _)
    · exact ha
    · exact ha.trans (ahead_skipWhile _ _)
    · exact ha.trans (ahead_finishNumber _)
    · exact ha.trans (ahead_finishString _)
    · exact ha.trans (ahead_finishSlash _)
    · split
      · exact ha
      · exact ha.trans (ahead_finishPaired _ _ _)
      · exact ahead_advanceChar c

end LoxFront.Cursor
