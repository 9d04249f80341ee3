import StyleNest.CommandLine.Run

/-!
The command line program: the run, on the system's own streams and files.
-/

namespace StyleNest.CommandLine

def readStandardInput : IO String := do
  let stdin ← IO.getStdin
  let mut text := ""
  let mut line ← stdin.getLine
  while line ≠ "" do
    text := text ++ line
    line ← stdin.getLine
  return text

/-- The reason why a file cannot be opened, told by the system's own number for it. -/
def openError : IO.Error → OpenError
  | .inappropriateType _ 20 _ => .notDirectory
  | .inappropriateType .. => .isDirectory
  | .invalidArgument _ 36 _ => .nameTooLong
  | _ => .missing

def Host.system : Host IO where
  read
    | .standard => return some (← readStandardInput).toList
    | .file path =>
      try
        return some (← IO.FS.readFile (String.ofList path)).toList
      catch _ => return none
  write path text := do
    try
      IO.FS.writeFile (String.ofList path) (String.ofList text)
      return .ok ()
    catch e => return .error (openError e)

end StyleNest.CommandLine

open StyleNest.CommandLine in
def main (words : List String) : IO UInt32 := do
  let ending ← Host.system.run (words.map String.toList)
  IO.eprint (String.ofList ending.err)
  IO.print (String.ofList ending.out)
  return ending.exit.toUInt32
