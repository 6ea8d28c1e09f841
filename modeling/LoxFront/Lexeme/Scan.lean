import LoxFront.Lexeme.Tag
import LoxFront.Source.Cursor

/-! Cutting a source into lexemes. The first byte of a lexeme decides its class, and each class
takes as many bytes as it can. -/
namespace LoxFront

structure Lexeme where
  tag : Tag
  bytes : List UInt8
  line : UInt32
deriving DecidableEq

namespace Lexeme

def len (l : Lexeme) : Nat :=
  l.bytes.length

/-- The text of a lexeme. A lexeme cut from a text holds whole characters, so its bytes can be read.
-/
def text (l : Lexeme) : String :=
  Text.ofBytes l.bytes

end Lexeme

namespace Cursor

/-- Behind the first digit of a number: the other digits and, if a dot and a digit follow, a
fraction. -/
def finishNumber (c : Cursor) : Cursor :=
  let whole := c.skipWhile Byte.isDigit
  if whole.current = Byte.dot ∧ Byte.isDigit whole.peek then
    whole.advance.skipWhile Byte.isDigit
  else whole

def finishString (c : Cursor) : Tag × Cursor :=
  match c.seek Byte.quote with
  | (true, found) => (.string, found.advance)
  | (false, final) => (.unterminatedString, final)

/-- Behind the opening mark of a block comment: everything up to the first closing mark, or all that
is left. Comments do not nest. -/
def finishBlock (c : Cursor) : Tag × Cursor :=
  match c.seekPair Byte.star Byte.slash with
  | (true, found) => (.blockComment, found.advance.advance)
  | (false, final) =>
    -- Only a star that is the last byte can be half a closing mark.
    if c.rest.getLast? = some Byte.star then (.malformedBlockComment, final)
    else (.unterminatedBlockComment, final)

def finishSlash (c : Cursor) : Tag × Cursor :=
  match c.eat? Byte.slash with
  | some d => (.lineComment, d.skipLine)
  | none =>
    match c.eat? Byte.star with
    | some d => d.finishBlock
    | none => (.operator .slash, c)

def finishPaired (c : Cursor) (plain withEquals : Operator) : Tag × Cursor :=
  match c.eat? Byte.equals with
  | some d => (.operator withEquals, d)
  | none => (.operator plain, c)

def scan (c : Cursor) : Tag × Cursor :=
  match c.rest with
  | [] => (.eof, c)
  | b :: _ =>
    if Byte.isBlank b then (.whitespace, c.advance.skipWhile Byte.isBlank)
    else if b = Byte.newline then (.newline, c.advance)
    else if Byte.isLetter b then (.ident, c.advance.skipWhile Byte.isWord)
    else if Byte.isDigit b then (.number, c.advance.finishNumber)
    else if b = Byte.quote then c.advance.finishString
    else if b = Byte.slash then c.advance.finishSlash
    else
      match Operator.single? b, Operator.paired? b with
      | some o, _ => (.operator o, c.advance)
      | none, some (plain, withEquals) => c.advance.finishPaired plain withEquals
      | none, none => (.invalidChar, c.advanceChar)

/-- The lexeme ahead and the cursor behind it. At the end of input the cursor stays. -/
def next (c : Cursor) : Lexeme × Cursor :=
  let (tag, final) := c.scan
  (⟨tag, c.rest.take (final.pos - c.pos), final.line⟩, final)

theorem length_rest_finishNumber_le (c : Cursor) :
    c.finishNumber.rest.length ≤ c.rest.length := by
  have hw := length_rest_skipWhile_le c Byte.isDigit
  unfold finishNumber
  simp only
  split
  · have ha := length_rest_advance_le (c.skipWhile Byte.isDigit)
    have hf := length_rest_skipWhile_le (c.skipWhile Byte.isDigit).advance Byte.isDigit
    omega
  · exact hw

theorem length_rest_finishString_le (c : Cursor) :
    c.finishString.2.rest.length ≤ c.rest.length := by
  have hs := length_rest_seek_le c Byte.quote
  unfold finishString
  split
  · rename_i found heq
    rw [heq] at hs
    exact Nat.le_trans (length_rest_advance_le found) hs
  · rename_i final heq
    rw [heq] at hs
    exact hs

theorem length_rest_finishBlock_le (c : Cursor) :
    c.finishBlock.2.rest.length ≤ c.rest.length := by
  have hs := length_rest_seekPair_le c Byte.star Byte.slash
  unfold finishBlock
  split
  · rename_i found heq
    rw [heq] at hs
    have h1 := length_rest_advance_le found
    have h2 := length_rest_advance_le found.advance
    simp only at hs ⊢
    omega
  · rename_i final heq
    rw [heq] at hs
    split <;> exact hs

theorem eat?_eq_some {c d : Cursor} {b : UInt8} (h : c.eat? b = some d) : d = c.advance := by
  unfold eat? at h
  split at h
  · exact (Option.some.inj h).symm
  · cases h

theorem length_rest_finishSlash_le (c : Cursor) :
    c.finishSlash.2.rest.length ≤ c.rest.length := by
  have ha := length_rest_advance_le c
  unfold finishSlash
  split
  · rename_i d hd
    rw [eat?_eq_some hd]
    exact Nat.le_trans (length_rest_skipWhile_le c.advance _) ha
  · split
    · rename_i d hd
      rw [eat?_eq_some hd]
      exact Nat.le_trans (length_rest_finishBlock_le c.advance) ha
    · exact Nat.le_refl _

theorem length_rest_finishPaired_le (c : Cursor) (o p : Operator) :
    (c.finishPaired o p).2.rest.length ≤ c.rest.length := by
  unfold finishPaired
  split
  · rename_i d hd
    rw [eat?_eq_some hd]
    exact length_rest_advance_le c
  · exact Nat.le_refl _

theorem length_rest_scan_lt (c : Cursor) (h : c.rest ≠ []) :
    c.scan.2.rest.length < c.rest.length := by
  have ha := length_rest_advance_lt c h
  unfold scan
  split
  · contradiction
  · repeat' split
    · exact Nat.lt_of_le_of_lt (length_rest_skipWhile_le c.advance _) ha
    · exact ha
    · exact Nat.lt_of_le_of_lt (length_rest_skipWhile_le c.advance _) ha
    · exact Nat.lt_of_le_of_lt (length_rest_finishNumber_le c.advance) ha
    · exact Nat.lt_of_le_of_lt (length_rest_finishString_le c.advance) ha
    · exact Nat.lt_of_le_of_lt (length_rest_finishSlash_le c.advance) ha
    · exact ha
    · exact Nat.lt_of_le_of_lt (length_rest_finishPaired_le c.advance _ _) ha
    · exact length_rest_advanceChar_lt c h

theorem length_rest_next_lt (c : Cursor) (h : c.rest ≠ []) :
    c.next.2.rest.length < c.rest.length :=
  length_rest_scan_lt c h

/-- The lexemes from the cursor on. The last one, and only that one, is the end of input. -/
def lexemes (c : Cursor) : List Lexeme :=
  if c.rest = [] then [c.next.1] else c.next.1 :: lexemes c.next.2
termination_by c.rest.length
decreasing_by exact length_rest_next_lt c ‹_›

def foldLexemes {σ : Type} (step : σ → Lexeme → σ) (state : σ) (c : Cursor) : σ :=
  if c.rest = [] then step state c.next.1
  else foldLexemes step (step state c.next.1) c.next.2
termination_by c.rest.length
decreasing_by exact length_rest_next_lt c ‹_›

theorem foldLexemes_eq_foldl {σ : Type} (step : σ → Lexeme → σ) (state : σ) (c : Cursor) :
    c.foldLexemes step state = c.lexemes.foldl step state := by
  fun_induction foldLexemes step state c with
  | case1 state c h => rw [lexemes, if_pos h]; rfl
  | case2 state c h ih => rw [lexemes, if_neg h, List.foldl_cons, ih]

end Cursor

end LoxFront
