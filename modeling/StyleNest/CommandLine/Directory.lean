import StyleNest.Text.Basic

/-!
The directory that a run works in, and the files in it that paths name.

A path is followed name by name. All names but the last must be directories, and the last one must
not be, so a slash may not end it.

Left out are directories in this one and whatever lies outside. So a path never leads on through the
name of a directory, inside or outside. Outside no file can be read, and every last name is taken
for that of a file, which may be made but is not kept.
-/

namespace StyleNest.CommandLine

/-- The files of a directory without directories in it, by name. -/
abbrev Directory := List (Text × Text)

inductive OpenError where
  | missing
  | isDirectory
  | notDirectory
  | nameTooLong
  deriving DecidableEq, Repr

def OpenError.message : OpenError → Text
  | .missing => "No such file or directory".toList
  | .isDirectory => "Is a directory".toList
  | .notDirectory => "Not a directory".toList
  | .nameTooLong => "File name too long".toList

namespace Path

/-- The parts of a path between its slashes, empty ones included. -/
def parts : Text → List Text
  | [] => [[]]
  | c :: s =>
    if c = '/' then [] :: parts s
    else
      match parts s with
      | part :: rest => (c :: part) :: rest
      | [] => [[c]]

/-- Slashes side by side count as one. -/
def names (path : Text) : List Text := (parts path).filter (· ≠ [])

/-- The number of bytes that a text takes up. -/
def bytes (s : Text) : Nat := s.foldl (fun n c => n + c.utf8Size) 0

def maxNameBytes : Nat := 255

def maxPathBytes : Nat := 4095

end Path

/-- A directory that a path leads to. -/
inductive Place where
  | inside
  | outside
  deriving DecidableEq, Repr

/-- The directory that a name stands for in a place. -/
def Place.enter (files : Directory) (place : Place) (name : Text) : Except OpenError Place :=
  if name = ['.'] then .ok place
  else if name = ['.', '.'] then .ok .outside
  else if Path.maxNameBytes < Path.bytes name then .error .nameTooLong
  else if place = .inside ∧ (files.lookup name).isSome then .error .notDirectory
  else .error .missing

/-- A file that a path leads to, whether it is there or not. -/
inductive Target where
  | inside (name : Text)
  | outside
  deriving DecidableEq, Repr

/-- The file at the end of a path, `name` being the last name and `slashed` whether a slash stands
behind it. -/
def Place.target (place : Place) (name : Text) (slashed : Bool) : Except OpenError Target :=
  if name = ['.'] ∨ name = ['.', '.'] ∨ slashed then .error .isDirectory
  else if Path.maxNameBytes < Path.bytes name then .error .nameTooLong
  else
    match place with
    | .inside => .ok (.inside name)
    | .outside => .ok .outside

namespace Directory

/-- The file that a path leads to. -/
def resolve (files : Directory) (path : Text) : Except OpenError Target := do
  if Path.maxPathBytes < Path.bytes path then .error .nameTooLong
  else if path = [] then .error .missing
  else
    let start : Place := if path.head? = some '/' then .outside else .inside
    let place ← (Path.names path).dropLast.foldlM (Place.enter files) start
    match (Path.names path).getLast? with
    | none => .error .isDirectory
    | some name => place.target name (path.getLast? = some '/')

/-- The content of a file that is there. -/
def read? (files : Directory) (path : Text) : Option Text :=
  match files.resolve path with
  | .ok (.inside name) => files.lookup name
  | _ => none

/-- Makes the content of a file, which need not be there, the given one. -/
def put (files : Directory) (name content : Text) : Directory :=
  match files with
  | [] => [(name, content)]
  | (n, c) :: files => if n = name then (n, content) :: files else (n, c) :: put files name content

/-- Writes a file. One outside the directory leaves no trace in it. -/
def write (files : Directory) (path content : Text) : Except OpenError Directory := do
  match ← files.resolve path with
  | .inside name => return files.put name content
  | .outside => return files

end Directory
end StyleNest.CommandLine
