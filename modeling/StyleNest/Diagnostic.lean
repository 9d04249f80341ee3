import StyleNest.Text.Quoted

/-!
Reports of malformed input, and their message on one line. A report names a place or the text
that was read; where it has both, the message names the place.
-/

namespace StyleNest

/-- What was found, nothing standing for the end of the input, and where. -/
structure Diagnostic where
  found : Text
  line : Option Int
  column : Option Int
  source : Option Text
  deriving DecidableEq, Repr

namespace Diagnostic

open Text

def what (d : Diagnostic) : Text :=
  if d.found = [] then "Unexpected end of input".toList
  else "Unexpected character ".toList ++ quoted d.found

/-- A number, or the word for a missing one. -/
def columnText : Option Int → Text
  | some n => integer n
  | none => "None".toList

def message (d : Diagnostic) : Text :=
  match d.line, d.source with
  | some line, _ =>
    d.what ++ " at line ".toList ++ integer line ++ ", column ".toList ++ columnText d.column
  | none, some source => d.what ++ " in ".toList ++ quoted source
  | none, none => d.what

end Diagnostic
end StyleNest
