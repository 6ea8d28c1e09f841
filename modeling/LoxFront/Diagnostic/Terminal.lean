import LoxFront.Diagnostic.Emitter
import LoxFront.Output.Sink

namespace LoxFront

inductive ColorMode where
  | auto
  | always
  | never
deriving DecidableEq

namespace ColorMode

def ofText? (text : String) : Option ColorMode :=
  if text = "auto" then some auto
  else if text = "always" then some always
  else if text = "never" then some never
  else none

def useColors (mode : ColorMode) (isTerminal : Bool) : Bool :=
  match mode with
  | auto => isTerminal
  | always => true
  | never => false

end ColorMode

inductive Style where
  | redBold
  | bold
  | dim
deriving DecidableEq

def Style.on : Style → String
  | redBold => "\x1b[1;31m"
  | bold => "\x1b[1m"
  | dim => "\x1b[2m"

def Style.off : String :=
  "\x1b[0m"

namespace Terminal

def paint (color : Bool) (style : Style) (text : String) : String :=
  if color then style.on ++ text ++ Style.off else text

def heading (color : Bool) (d : Diagnostic) : String :=
  let location :=
    match d.line with
    | some line => paint color .dim (Diagnostic.place line) ++ " "
    | none => ""
  location ++ paint color .redBold "error" ++ paint color .bold ("[" ++ d.code.name ++ "]")
    ++ ": " ++ d.message ++ "\n"

def noteLine (color : Bool) (note : String) : String :=
  "  = " ++ paint color .bold "note" ++ ": " ++ note ++ "\n"

def lines (color : Bool) (d : Diagnostic) : List String :=
  heading color d :: d.notes.map (noteLine color)

def closing (errors : Nat) : String :=
  if errors = 1 then "aborting due to previous error"
  else "aborting due to " ++ toString errors ++ " previous errors"

def summaryLines (color : Bool) (errors : Nat) : List String :=
  if errors = 0 then []
  else [paint color .redBold "error" ++ ": " ++ closing errors ++ "\n"]

/-- Writes diagnostics to a sink. What it refuses is lost: a refused line also costs its diagnostic
the lines behind it, and the next diagnostic is tried again. -/
def emitter (color : Bool) : Emitter Sink where
  emit sink d := (sink.writeAll (lines color d)).1
  summary sink errors := (sink.writeAll (summaryLines color errors)).1
  flush := Sink.flush

end Terminal

end LoxFront
