import LoxFront.Diagnostic.Code

namespace LoxFront

structure Diagnostic where
  code : Code
  message : String
  line : Option UInt32
  notes : List String
deriving DecidableEq

namespace Diagnostic

def ofCode (code : Code) : Diagnostic :=
  ⟨code, "", none, []⟩

def withMessage (d : Diagnostic) (message : String) : Diagnostic :=
  { d with message }

def atLine (d : Diagnostic) (line : UInt32) : Diagnostic :=
  { d with line := some line }

def withNote (d : Diagnostic) (note : String) : Diagnostic :=
  { d with notes := d.notes ++ [note] }

def place (line : UInt32) : String :=
  "[line " ++ toString line.toNat ++ "]"

/-- A diagnostic as plain text: a heading, then a line for each note. -/
def render (d : Diagnostic) : String :=
  let location :=
    match d.line with
    | some line => place line ++ " "
    | none => ""
  location ++ "error[" ++ d.code.name ++ "]: " ++ d.message
    ++ String.join (d.notes.map fun note => "\n  = note: " ++ note)

end Diagnostic

end LoxFront
