import LoxFront.Fault
import LoxFront.Lexeme.Scan
import LoxFront.Number.Reading
import LoxFront.Token.Basic

/-! Each lexeme yields one token, one fault or nothing; a reading collects these in order. -/
namespace LoxFront

inductive Yield where
  | nothing
  | token (t : Token)
  | fault (f : Fault)
deriving DecidableEq

namespace Lexeme

def wordKind (text : String) : Kind :=
  match Keyword.ofText? text with
  | some k => .keyword k
  | none => .identifier

def quoted (l : Lexeme) : String :=
  Text.ofBytes l.bytes.tail.dropLast

/-- The value of a number lexeme. Every number lexeme can be read. -/
def number (l : Lexeme) : Binary64 :=
  (Binary64.ofText? l.text).getD Binary64.nan

def char (l : Lexeme) : Char :=
  l.text.toList.headD '\uFFFD'

def yield (l : Lexeme) : Yield :=
  match l.tag with
  | .whitespace | .newline | .lineComment | .blockComment => .nothing
  | .ident => .token ⟨wordKind l.text, l.text, none, l.line⟩
  | .number => .token ⟨.number, l.text, some (.number l.number), l.line⟩
  | .string => .token ⟨.string, l.text, some (.text l.quoted), l.line⟩
  | .operator o => .token ⟨.operator o, l.text, none, l.line⟩
  | .eof => .token (Token.eof l.line)
  | .invalidChar => .fault ⟨l.line, .unexpectedCharacter l.char⟩
  | .unterminatedString => .fault ⟨l.line, .unterminatedString⟩
  | .unterminatedBlockComment => .fault ⟨l.line, .unterminatedComment⟩
  | .malformedBlockComment => .fault ⟨l.line, .malformedCommentClose⟩

end Lexeme

structure Lexed where
  tokens : List Token
  faults : List Fault
deriving DecidableEq

def Lexed.hasFaults (l : Lexed) : Bool :=
  !l.faults.isEmpty

/-- How a reporter's state changes when it is told the line and the message of a fault. -/
abbrev Reporter (σ : Type) := σ → UInt32 → String → σ

structure Lexing (σ : Type) where
  tokens : Array Token
  faults : Array Fault
  mark : Nat
  reporter : σ

namespace Lexing
variable {σ : Type}

def start (state : σ) : Lexing σ :=
  ⟨#[], #[], 0, state⟩

def add (s : Lexing σ) (l : Lexeme) : Lexing σ :=
  let marked := { s with mark := s.faults.size }
  match l.yield with
  | .nothing => marked
  | .token t => { marked with tokens := marked.tokens.push t }
  | .fault f => { marked with faults := marked.faults.push f }

/-- The fault of the last lexeme. It has one if there are now more of them than at the mark. -/
def newest? (s : Lexing σ) : Option Fault :=
  if s.mark < s.faults.size then s.faults.back? else none

def tellNewest (report : Reporter σ) (s : Lexing σ) : Lexing σ :=
  match s.newest? with
  | some f => { s with reporter := report s.reporter f.line f.message }
  | none => s

def step (report : Reporter σ) (s : Lexing σ) (l : Lexeme) : Lexing σ :=
  (s.add l).tellNewest report

end Lexing

/-- Reads a source and tells a reporter of each fault. Gives the reading and the reporter's last
state. -/
def lexWith {σ : Type} (report : Reporter σ) (state : σ) (source : String) : Lexed × σ :=
  let final := (Cursor.ofText source).foldLexemes (Lexing.step report) (Lexing.start state)
  (⟨final.tokens.toList, final.faults.toList⟩, final.reporter)

def lex (source : String) : Lexed :=
  (lexWith (fun state _ _ => state) () source).1

end LoxFront
