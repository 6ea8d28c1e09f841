import LoxFront.Proofs.MaximalMunch
import LoxFront.Proofs.Moves
import Mathlib.Algebra.GroupWithZero.Nat
import Mathlib.Logic.Function.Iterate

namespace LoxFront.Cursor
open Text

def after (c : Cursor) (n : Nat) : Cursor :=
  (fun d : Cursor => d.next.2)^[n] c

def lexemeAt (c : Cursor) (n : Nat) : Lexeme :=
  (c.after n).next.1

theorem after_succ (c : Cursor) (n : Nat) : c.after (n + 1) = c.next.2.after n :=
  Function.iterate_succ_apply _ n c

theorem lexemeAt_succ (c : Cursor) (n : Nat) : c.lexemeAt (n + 1) = c.next.2.lexemeAt n := by
  rw [lexemeAt, after_succ, lexemeAt]

/-- The first `n` lexemes lie side by side over what is ahead, and the end of input is the next one
and every one behind it. -/
structure Tiled (c : Cursor) (stop n : Nat) : Prop where
  proper : ∀ i < n, (c.lexemeAt i).tag ≠ .eof ∧ 1 ≤ (c.lexemeAt i).len
  adjacent : ∀ i, (c.after (i + 1)).pos = (c.after i).pos + (c.lexemeAt i).len
  within : ∀ i, (c.after i).pos ≤ stop
  covers : (List.range n).flatMap (fun i => (c.lexemeAt i).bytes) = c.rest
  total : c.pos + ((List.range n).map fun i => (c.lexemeAt i).len).sum = stop
  ended : ∀ i, n ≤ i → c.after i = c.after n ∧ c.lexemeAt i = ⟨.eof, [], (c.after n).line⟩
  lexemes_eq : c.lexemes = (List.range (n + 1)).map c.lexemeAt

theorem tag_finishString (c : Cursor) : c.finishString.1 ≠ .eof := by
  unfold finishString
  split <;> exact Tag.noConfusion

theorem tag_finishBlock (c : Cursor) : c.finishBlock.1 ≠ .eof := by
  unfold finishBlock
  split
  · exact Tag.noConfusion
  · split_ifs <;> exact Tag.noConfusion

theorem tag_finishSlash (c : Cursor) : c.finishSlash.1 ≠ .eof := by
  unfold finishSlash
  split
  · exact Tag.noConfusion
  · split
    · exact tag_finishBlock _
    · exact Tag.noConfusion

theorem tag_finishPaired (c : Cursor) (plain withEquals : Operator) :
    (c.finishPaired plain withEquals).1 ≠ .eof := by
  unfold finishPaired
  split <;> exact Tag.noConfusion

/-- Only where nothing is ahead a scan gives the end of input. The end mark as a byte does not count
as such. -/
theorem tag_scan {c : Cursor} (h : c.rest ≠ []) : c.scan.1 ≠ .eof := by
  unfold scan
  split
  · contradiction
  · repeat' split
    · exact Tag.noConfusion
    · exact Tag.noConfusion
    · exact Tag.noConfusion
    · exact Tag.noConfusion
    · exact tag_finishString _
    · exact tag_finishSlash _
    · exact Tag.noConfusion
    · exact tag_finishPaired _ _ _
    · exact Tag.noConfusion

theorem next_covers (c : Cursor) :
    c.rest = c.next.1.bytes ++ c.next.2.rest ∧ c.next.2.pos = c.pos + c.next.1.len := by
  obtain ⟨bytes, hb, hp⟩ := (ahead_scan c).exists_between
  have hbytes : c.next.1.bytes = bytes := by
    change c.rest.take (c.scan.2.pos - c.pos) = bytes
    rw [hp, Nat.add_sub_cancel_left, hb, List.take_left]
  rw [Lexeme.len, hbytes]
  exact ⟨hb, hp⟩

theorem one_le_len_next {c : Cursor} (h : c.rest ≠ []) : 1 ≤ c.next.1.len := by
  have hlt := length_rest_next_lt c h
  have hlen := congrArg List.length (next_covers c).1
  rw [List.length_append] at hlen
  rw [Lexeme.len]
  omega

theorem after_of_rest_nil {c : Cursor} (h : c.rest = []) (n : Nat) : c.after n = c := by
  have hfixed : c.next.2 = c := congrArg Prod.snd (next_of_rest_nil h)
  exact Function.iterate_fixed hfixed n

theorem tiled_of_rest_nil {c : Cursor} (h : c.rest = []) : c.Tiled c.pos 0 := by
  have hafter := after_of_rest_nil h
  have hlexeme (n : Nat) : c.lexemeAt n = ⟨.eof, [], c.line⟩ := by
    rw [lexemeAt, hafter, next_of_rest_nil h]
  constructor
  · intro i hi
    exact absurd hi (Nat.not_lt_zero i)
  · intro i
    rw [hafter, hafter, hlexeme]
    rfl
  · intro i
    rw [hafter]
  · exact h.symm
  · rfl
  · intro i _
    rw [hafter, hafter, hlexeme]
    exact ⟨rfl, rfl⟩
  · rw [lexemes, if_pos h]
    rfl

theorem Tiled.cons {c : Cursor} {stop n : Nat} (hc : c.rest ≠ []) (h : c.next.2.Tiled stop n) :
    c.Tiled stop (n + 1) := by
  obtain ⟨hrest, hpos⟩ := next_covers c
  constructor
  · intro i hi
    cases i with
    | zero => exact ⟨tag_scan hc, one_le_len_next hc⟩
    | succ i =>
      rw [lexemeAt_succ]
      exact h.proper i (Nat.lt_of_succ_lt_succ hi)
  · intro i
    cases i with
    | zero => exact hpos
    | succ i =>
      rw [after_succ, after_succ c i, lexemeAt_succ]
      exact h.adjacent i
  · intro i
    cases i with
    | zero =>
      have hw : c.next.2.pos ≤ stop := h.within 0
      change c.pos ≤ stop
      omega
    | succ i =>
      rw [after_succ]
      exact h.within i
  · rw [List.range_succ_eq_map, List.flatMap_cons, List.flatMap_map]
    simp only [lexemeAt_succ]
    rw [h.covers]
    exact hrest.symm
  · rw [List.range_succ_eq_map, List.map_cons, List.map_map, List.sum_cons]
    simp only [Function.comp_def, lexemeAt_succ]
    calc
      c.pos + (c.next.1.len + ((List.range n).map fun i => (c.next.2.lexemeAt i).len).sum)
          = c.next.2.pos + ((List.range n).map fun i => (c.next.2.lexemeAt i).len).sum := by
        rw [hpos, Nat.add_assoc]
      _ = stop := h.total
  · intro i hi
    obtain ⟨i, rfl⟩ : ∃ k, i = k + 1 := ⟨i - 1, by omega⟩
    rw [after_succ, after_succ c n, lexemeAt_succ]
    exact h.ended i (Nat.le_of_succ_le_succ hi)
  · rw [lexemes, if_neg hc, h.lexemes_eq, List.range_succ_eq_map (n := n + 1), List.map_cons,
      List.map_map]
    rfl

theorem exists_tiled (c : Cursor) : ∃ n, c.Tiled (c.pos + c.rest.length) n := by
  fun_induction lexemes c with
  | case1 c h =>
    rw [h]
    exact ⟨0, tiled_of_rest_nil h⟩
  | case2 c h ih =>
    obtain ⟨n, hn⟩ := ih
    have htotal : c.next.2.pos + c.next.2.rest.length = c.pos + c.rest.length :=
      (ahead_scan c).total
    rw [htotal] at hn
    exact ⟨n + 1, hn.cons h⟩

theorem pos_add_length_moveAll (source : String) (moves : List Move) :
    ((ofText source).moveAll moves).pos + ((ofText source).moveAll moves).rest.length =
      size source := by
  rw [(ahead_moveAll (ofText source) moves).total]
  exact Nat.zero_add _

theorem standsIn_moveAll (source : String) (moves : List Move) :
    ((ofText source).moveAll moves).StandsIn source := by
  obtain ⟨behind, hb, hp⟩ := (ahead_moveAll (ofText source) moves).exists_between
  have hpos : ((ofText source).moveAll moves).pos = behind.length := hp.trans (Nat.zero_add _)
  have hbytes : bytes source = behind ++ ((ofText source).moveAll moves).rest := hb
  rw [StandsIn, hpos, hbytes, List.drop_left]

/-- From every cursor that moves can lead to in a source, on or off a character boundary, the calls
for lexemes come to the end of input, and the lexemes up to there lie side by side. -/
theorem lexemes_tile (source : String) (moves : List Move) :
    ((ofText source).moveAll moves).StandsIn source ∧
      ∃ n, ((ofText source).moveAll moves).Tiled (size source) n := by
  obtain ⟨n, hn⟩ := exists_tiled ((ofText source).moveAll moves)
  rw [pos_add_length_moveAll] at hn
  exact ⟨standsIn_moveAll source moves, n, hn⟩

/-- Inside a letter of two bytes, in front of a byte that equals the end mark, three lexemes are
left. -/
example : ((ofText "é\x00\"").moveAll [.advance]).lexemes.map (fun l => (l.tag, l.len)) =
    [(.invalidChar, 1), (.invalidChar, 1), (.unterminatedString, 1), (.eof, 0)] := by
  decide +kernel

end LoxFront.Cursor
