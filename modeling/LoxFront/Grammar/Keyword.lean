namespace LoxFront

inductive Keyword where
  | and_
  | class_
  | else_
  | false_
  | fun_
  | for_
  | if_
  | nil
  | or_
  | print
  | return_
  | super
  | this_
  | true_
  | var
  | while_
deriving DecidableEq

namespace Keyword

def all : List Keyword :=
  [.and_, .class_, .else_, .false_, .fun_, .for_, .if_, .nil, .or_, .print, .return_, .super,
    .this_, .true_, .var, .while_]

def spelling : Keyword → String
  | .and_ => "and"
  | .class_ => "class"
  | .else_ => "else"
  | .false_ => "false"
  | .fun_ => "fun"
  | .for_ => "for"
  | .if_ => "if"
  | .nil => "nil"
  | .or_ => "or"
  | .print => "print"
  | .return_ => "return"
  | .super => "super"
  | .this_ => "this"
  | .true_ => "true"
  | .var => "var"
  | .while_ => "while"

def name : Keyword → String
  | .and_ => "AND"
  | .class_ => "CLASS"
  | .else_ => "ELSE"
  | .false_ => "FALSE"
  | .fun_ => "FUN"
  | .for_ => "FOR"
  | .if_ => "IF"
  | .nil => "NIL"
  | .or_ => "OR"
  | .print => "PRINT"
  | .return_ => "RETURN"
  | .super => "SUPER"
  | .this_ => "THIS"
  | .true_ => "TRUE"
  | .var => "VAR"
  | .while_ => "WHILE"

def ofText? (text : String) : Option Keyword :=
  all.find? (·.spelling == text)

theorem ofText?_spelling (k : Keyword) : ofText? k.spelling = some k := by
  cases k <;> decide

theorem ofText?_eq_some_iff {text : String} {k : Keyword} :
    ofText? text = some k ↔ text = k.spelling := by
  constructor
  · intro h
    unfold ofText? at h
    have hs := List.find?_some h
    exact (beq_iff_eq.mp hs).symm
  · intro h
    rw [h, ofText?_spelling]

end Keyword

end LoxFront
