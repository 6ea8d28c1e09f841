import LoxFront.Text.Utf8

/-! A model of the files that a path can reach, and of the ways in which reading one fails. -/
namespace LoxFront

inductive ReadFault where
  | notFound
  | permissionDenied
  | invalidUtf8
  | isDirectory
  /-- The path goes on behind a file. -/
  | notDirectory
  | nameTooLong
  | nulInName
  | other (reason : String)
deriving DecidableEq

structure ReadError where
  path : String
  fault : ReadFault
deriving DecidableEq

namespace ReadError

def failed (path reason : String) : String :=
  "error reading '" ++ path ++ "': " ++ reason

def message (e : ReadError) : String :=
  match e.fault with
  | .notFound => "cannot find file '" ++ e.path ++ "'"
  | .permissionDenied => "permission denied reading '" ++ e.path ++ "'"
  | .invalidUtf8 => "'" ++ e.path ++ "' contains invalid UTF-8 data"
  | .isDirectory => failed e.path "Is a directory (os error 21)"
  | .notDirectory => failed e.path "Not a directory (os error 20)"
  | .nameTooLong => failed e.path "File name too long (os error 36)"
  | .nulInName => failed e.path "file name contained an unexpected NUL byte"
  | .other reason => failed e.path reason

end ReadError

def decodeContent (path : String) (content : List UInt8) : Except ReadError String :=
  match Text.ofBytes? content with
  | some text => .ok text
  | none => .error ⟨path, .invalidUtf8⟩

inductive Node where
  | file (content : List UInt8)
  | directory (entries : List (String × Node))

/-- A node of a file tree, with the directories above it from the nearest to the topmost. -/
structure Location where
  here : Node
  above : List Node

namespace Location

def ofEntries (entries : List (String × Node)) : Location :=
  ⟨.directory entries, [.directory []]⟩

def top (l : Location) : Location :=
  match l.above.getLast? with
  | some node => ⟨node, []⟩
  | none => l

/-- Follows one component of a path. Nothing lies above the topmost directory but itself. -/
def enter (l : Location) (name : String) : Except ReadFault Location :=
  match l.here with
  | .file _ => .error .notDirectory
  | .directory entries =>
    -- An empty component comes from a slash at an end of the path, or from two in a row.
    if name = "" ∨ name = "." then .ok l
    else if name = ".." then
      match l.above with
      | [] => .ok l
      | parent :: above => .ok ⟨parent, above⟩
    else if 255 < Text.size name then .error .nameTooLong
    else
      match entries.lookup name with
      | some node => .ok ⟨node, l.here :: l.above⟩
      | none => .error .notFound

def components : List Char → List (List Char)
  | [] => [[]]
  | c :: cs =>
    if c = '/' then [] :: components cs
    else
      match components cs with
      | [] => [[c]]
      | name :: names => (c :: name) :: names

def content (l : Location) (path : String) : Except ReadFault (List UInt8) := do
  if path.toList.contains '\x00' then throw .nulInName
  if path = "" then throw .notFound
  if 4096 ≤ Text.size path then throw .nameTooLong
  let start := if path.toList.head? = some '/' then l.top else l
  let final ← (components path.toList).foldlM (fun l name => l.enter (String.ofList name)) start
  match final.here with
  | .file content => return content
  | .directory _ => throw .isDirectory

def read (l : Location) (path : String) : Except ReadError String :=
  match l.content path with
  | .ok content => decodeContent path content
  | .error fault => .error ⟨path, fault⟩

end Location

end LoxFront
