import LoxFront.Diagnostic.Basic
import LoxFront.Fault

namespace LoxFront

namespace Cause

def code : Cause → Code
  | unterminatedString => .e0001
  | unexpectedCharacter _ => .e0002
  | unterminatedComment => .e0003
  | malformedCommentClose => .e0004

/-- The number of a character in at least four hexadecimal digits. -/
def codePoint (c : Char) : String :=
  let digits := (Nat.toDigits 16 c.toNat).map Char.toUpper
  "U+" ++ String.ofList (List.replicate (4 - digits.length) '0' ++ digits)

/-- The notes for a cause. A character outside ASCII is also named by its number, since it may look
like an ASCII one. -/
def notes : Cause → List String
  | unexpectedCharacter found =>
    if 0x80 ≤ found.toNat then
      ["identifiers and operators are ASCII only",
        "`" ++ String.singleton found ++ "` is " ++ codePoint found]
    else ["this character does not start any Lox token"]
  | unterminatedString => ["add a closing `\"`; strings may span lines but must be closed"]
  | unterminatedComment => ["close the block comment with `*/`"]
  | malformedCommentClose => ["a block comment is closed by `*/`, not a lone `*`"]

end Cause

def Diagnostic.ofFault (f : Fault) : Diagnostic :=
  ⟨f.cause.code, f.message, some f.line, f.cause.notes⟩

end LoxFront
