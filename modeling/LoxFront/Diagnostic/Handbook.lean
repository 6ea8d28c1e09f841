import LoxFront.Diagnostic.Code

/-! The handbook: for each code, what it means, an example and how to mend it. -/
namespace LoxFront.Handbook

def page (lines : List String) : String :=
  String.join (lines.map (· ++ "\n"))

def unterminatedString : String :=
  page [
    "# E0001: Unterminated String",
    "",
    "A string literal was opened with `\"` but the file ended before the closing",
    "`\"` was found.",
    "",
    "## Example",
    "",
    "```lox",
    "print \"hello;",
    "```",
    "",
    "Lox strings may span several lines, so everything after the opening quote,",
    "including later lines, is treated as part of the string until a closing",
    "quote appears. The error is reported on the last line of the file.",
    "",
    "## Solution",
    "",
    "Close the string:",
    "",
    "```lox",
    "print \"hello\";",
    "```",
    "",
    "Lox has no escape sequences, so a string cannot contain a `\"` character."]

def unexpectedCharacter : String :=
  page [
    "# E0002: Unexpected Character",
    "",
    "The source contains a character that does not start any Lox token.",
    "",
    "## Example",
    "",
    "```lox",
    "var total = price @ 2;",
    "```",
    "",
    "Lox accepts only ASCII letters, digits, `_`, whitespace, and the",
    "punctuation `( ) \x7b \x7d , . - + ; * / ! = < > \"`. Identifiers are ASCII only,",
    "so letters such as `é` are also rejected.",
    "",
    "The character is skipped and scanning continues, so later errors in the",
    "same file are still reported.",
    "",
    "## Solution",
    "",
    "Remove the character or replace it with a valid operator:",
    "",
    "```lox",
    "var total = price * 2;",
    "```"]

def unterminatedComment : String :=
  page [
    "# E0003: Unterminated Block Comment",
    "",
    "A block comment was opened with `/*` but the file ended before a closing",
    "`*/` was found.",
    "",
    "## Example",
    "",
    "```lox",
    "/* compute the total",
    "var total = 1 + 2;",
    "```",
    "",
    "Everything after `/*` is part of the comment, so the declaration above is",
    "never scanned. Block comments do not nest.",
    "",
    "## Solution",
    "",
    "Close the comment:",
    "",
    "```lox",
    "/* compute the total */",
    "var total = 1 + 2;",
    "```"]

def malformedCommentClose : String :=
  page [
    "# E0004: Malformed Block Comment Close",
    "",
    "A block comment ends with a `*` at the end of the file that is not followed",
    "by `/`.",
    "",
    "## Example",
    "",
    "```lox",
    "var x = 1;",
    "/* done *",
    "```",
    "",
    "A block comment is closed only by the two characters `*/`. A trailing `*`",
    "on its own does not close it.",
    "",
    "## Solution",
    "",
    "Add the missing `/`:",
    "",
    "```lox",
    "var x = 1;",
    "/* done */",
    "```"]

def entry : Code → String
  | .e0001 => unterminatedString
  | .e0002 => unexpectedCharacter
  | .e0003 => unterminatedComment
  | .e0004 => malformedCommentClose

def index : List (Code × String) :=
  [(.e0001, unterminatedString), (.e0002, unexpectedCharacter), (.e0003, unterminatedComment),
    (.e0004, malformedCommentClose)]

def lookup? (code : Code) : Option String :=
  (index.find? fun item => item.1 = code).map Prod.snd

end LoxFront.Handbook
