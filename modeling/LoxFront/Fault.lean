/-! Lexical faults: text that no token can be made from. -/
namespace LoxFront

inductive Cause where
  | unexpectedCharacter (found : Char)
  | unterminatedString
  | unterminatedComment
  | malformedCommentClose
deriving DecidableEq

def Cause.message : Cause → String
  | unexpectedCharacter found => "Unexpected character '" ++ String.singleton found ++ "'."
  | unterminatedString => "Unterminated string."
  | unterminatedComment => "Unterminated comment."
  | malformedCommentClose => "Expected '/' after '*' to close comment."

structure Fault where
  line : UInt32
  cause : Cause
deriving DecidableEq

def Fault.message (f : Fault) : String :=
  f.cause.message

end LoxFront
