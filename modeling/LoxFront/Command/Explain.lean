import LoxFront.Diagnostic.Handbook

namespace LoxFront

inductive ExplainError where
  | unknownCode (text : String)
  | undocumented (code : Code)
deriving DecidableEq

namespace ExplainError

def message : ExplainError → String
  | unknownCode text => "unknown error code: " ++ text
  | undocumented code => "no documentation available for " ++ code.name

def hints : ExplainError → List String
  | unknownCode _ =>
    ["",
      "Codes have the format EXXXX where X is a digit.",
      "Known codes: " ++ ", ".intercalate (Code.all.map Code.name)]
  | undocumented _ => []

end ExplainError

def explain (text : String) : Except ExplainError String :=
  match Code.ofText? text with
  | none => .error (.unknownCode text)
  | some code =>
    match Handbook.lookup? code with
    | some page => .ok page
    | none => .error (.undocumented code)

end LoxFront
