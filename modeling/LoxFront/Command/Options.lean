import LoxFront.Diagnostic.Docket
import LoxFront.Diagnostic.Terminal
import LoxFront.Number.Decimal

namespace LoxFront

structure CheckOptions where
  color : ColorMode
  limits : Limits
deriving DecidableEq

inductive OptionError where
  | color (value : String)
  | errorLimit (value : String)
  | unknown (option : String)
deriving DecidableEq

def OptionError.message : OptionError → String
  | color value => "invalid --color value '" ++ value ++ "' (expected auto, always, or never)"
  | errorLimit value =>
    "invalid --error-limit value '" ++ value ++ "' (expected a non-negative integer)"
  | unknown option => "unknown option '" ++ option ++ "'"

def isOption (arg : String) : Bool :=
  arg.toList.head? == some '-'

def positional? (args : List String) : Option String :=
  args.find? (!isOption ·)

def valueAfter? (start : String) (arg : String) : Option String :=
  (start.toList.isPrefixOf? arg.toList).map String.ofList

abbrev greatestLimit : Nat := 0xFFFFFFFFFFFFFFFF

/-- A limit: one or more digits, after one plus sign at most, that do not exceed the greatest limit.
-/
def readLimit? (text : String) : Option Nat :=
  let digits :=
    match text.toList with
    | '+' :: r => r
    | r => r
  if digits.isEmpty || !digits.all Char.isDigit then none
  else
    let limit := Nat.ofDigitChars 10 digits 0
    if limit ≤ greatestLimit then some limit else none

namespace CheckOptions

def standard : CheckOptions :=
  ⟨.auto, Limits.standard⟩

def apply (o : CheckOptions) (arg : String) : Except OptionError CheckOptions :=
  match valueAfter? "--color=" arg, valueAfter? "--error-limit=" arg with
  | some value, _ =>
    match ColorMode.ofText? value with
    | some color => .ok { o with color }
    | none => .error (.color value)
  | none, some value =>
    match readLimit? value with
    | some errorLimit => .ok { o with limits := { o.limits with errorLimit } }
    | none => .error (.errorLimit value)
  | none, none =>
    if arg = "--no-dedup" then .ok { o with limits := { o.limits with deduplicate := false } }
    else .error (.unknown arg)

/-- The options among some arguments. The last one of a kind counts, and the first faulty one is the
error. -/
def ofArgs (args : List String) : Except OptionError CheckOptions :=
  (args.filter isOption).foldlM apply standard

end CheckOptions

end LoxFront
