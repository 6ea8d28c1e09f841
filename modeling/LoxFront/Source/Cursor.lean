import LoxFront.Source.Byte
import LoxFront.Text.Utf8

/-! A cursor stands between two bytes of a source, and every move goes forward. -/
namespace LoxFront

structure Cursor where
  pos : Nat
  rest : List UInt8
  /-- The line of the cursor, counted from 1 in a 32-bit word. -/
  line : UInt32
deriving DecidableEq

namespace Cursor

def ofBytes (bytes : List UInt8) : Cursor :=
  ⟨0, bytes, 1⟩

def ofText (source : String) : Cursor :=
  ofBytes (Text.bytes source)

def atEnd (c : Cursor) : Bool :=
  c.rest.isEmpty

def current (c : Cursor) : UInt8 :=
  c.rest.headD Byte.endMark

def peek (c : Cursor) : UInt8 :=
  c.rest.tail.headD Byte.endMark

/-- Moves over at most `n` bytes and leaves the line as it is. -/
def forward (c : Cursor) (n : Nat) : Cursor :=
  { c with pos := c.pos + (c.rest.take n).length, rest := c.rest.drop n }

/-- Moves over one byte. The line is a word, so the newline after line 2^32 - 1 leads to line 0. -/
def advance (c : Cursor) : Cursor :=
  let line := if c.rest.head? = some Byte.newline then c.line + 1 else c.line
  { c.forward 1 with line }

def eat? (c : Cursor) (expected : UInt8) : Option Cursor :=
  if c.rest.head? = some expected then some c.advance else none

/-- Moves over the bytes that satisfy a predicate. Newlines among them are not counted. -/
def skipWhile (c : Cursor) (p : UInt8 → Bool) : Cursor :=
  c.forward (c.rest.takeWhile p).length

def advanceChar (c : Cursor) : Cursor :=
  if c.current = Byte.newline then c.advance else c.forward (Byte.width c.current)

/-- A line moved down by a number of newlines. It stops at the greatest line a word can hold. -/
def lineAfter (line : UInt32) (newlines : Nat) : UInt32 :=
  UInt32.ofNat (min (line.toNat + newlines) (UInt32.size - 1))

def pass (c : Cursor) (n : Nat) : Cursor :=
  { c.forward n with line := lineAfter c.line ((c.rest.take n).count Byte.newline) }

def skipLine (c : Cursor) : Cursor :=
  c.skipWhile (· != Byte.newline)

/-- Moves to the next occurrence of a byte, or to the end if there is none, and says whether there
is one. -/
def seek (c : Cursor) (b : UInt8) : Bool × Cursor :=
  (c.rest.contains b, c.pass (c.rest.takeWhile (· != b)).length)

def pairIdx? (first second : UInt8) : Nat → List UInt8 → Option Nat
  | n, a :: b :: rest =>
    if a = first ∧ b = second then some n else pairIdx? first second (n + 1) (b :: rest)
  | _, _ => none

/-- Moves to the next place where one byte stands right before another, or to the end if there is
none, and says whether there is one. -/
def seekPair (c : Cursor) (first second : UInt8) : Bool × Cursor :=
  match pairIdx? first second 0 c.rest with
  | some n => (true, c.pass n)
  | none => (false, c.pass c.rest.length)

@[simp]
theorem rest_forward (c : Cursor) (n : Nat) : (c.forward n).rest = c.rest.drop n := rfl

@[simp]
theorem rest_advance (c : Cursor) : c.advance.rest = c.rest.drop 1 := rfl

@[simp]
theorem rest_pass (c : Cursor) (n : Nat) : (c.pass n).rest = c.rest.drop n := rfl

theorem length_rest_forward_le (c : Cursor) (n : Nat) :
    (c.forward n).rest.length ≤ c.rest.length := by
  simp

theorem length_rest_pass_le (c : Cursor) (n : Nat) : (c.pass n).rest.length ≤ c.rest.length := by
  simp

theorem length_rest_advance_le (c : Cursor) : c.advance.rest.length ≤ c.rest.length := by
  simp

theorem length_rest_advance_lt (c : Cursor) (h : c.rest ≠ []) :
    c.advance.rest.length < c.rest.length := by
  have hp := List.length_pos_iff.mpr h
  simp only [rest_advance, List.length_drop]
  omega

theorem length_rest_skipWhile_le (c : Cursor) (p : UInt8 → Bool) :
    (c.skipWhile p).rest.length ≤ c.rest.length :=
  length_rest_forward_le c _

theorem length_rest_seek_le (c : Cursor) (b : UInt8) : (c.seek b).2.rest.length ≤ c.rest.length :=
  length_rest_pass_le c _

theorem length_rest_seekPair_le (c : Cursor) (a b : UInt8) :
    (c.seekPair a b).2.rest.length ≤ c.rest.length := by
  unfold seekPair
  split
  · exact length_rest_pass_le c _
  · exact length_rest_pass_le c _

theorem length_rest_advanceChar_lt (c : Cursor) (h : c.rest ≠ []) :
    c.advanceChar.rest.length < c.rest.length := by
  unfold advanceChar
  split
  · exact length_rest_advance_lt c h
  · have hp := List.length_pos_iff.mpr h
    have hw := Byte.width_pos c.current
    simp only [rest_forward, List.length_drop]
    omega

end Cursor

end LoxFront
