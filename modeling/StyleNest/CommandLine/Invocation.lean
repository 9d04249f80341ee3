import StyleNest.CommandLine.Words
import StyleNest.Text.Numeral

/-!
What a command line asks for. Options of the program stand before the command, those of a command
anywhere behind it; of an option given twice the last one holds.

Help is left out, that of the program and that of a command: the word that asks for it is none of
the options here.
-/

namespace StyleNest.CommandLine

open Text

/-- Where a text comes from or goes to. -/
inductive Channel where
  | standard
  | file (path : Text)
  deriving DecidableEq, Repr

def Channel.ofWord (word : Text) : Channel := if word = ['-'] then .standard else .file word

inductive Job where
  | convert (tabs : Bool) (size : Option Nat) (output : Channel)
  | rules
  | inspect
  deriving DecidableEq, Repr

inductive Invocation where
  | version
  | job (verbose : Bool) (job : Job) (input : Channel)
  deriving DecidableEq, Repr

inductive ProgramOption where
  | version
  | verbose
  deriving DecidableEq, Repr

def ProgramOption.specs : List (OptionSpec ProgramOption) :=
  [⟨.version, "version".toList, none, false⟩, ⟨.verbose, "verbose".toList, some 'v', false⟩]

inductive ConvertOption where
  | tabs
  | size
  | output
  deriving DecidableEq, Repr

def ConvertOption.specs : List (OptionSpec ConvertOption) :=
  [⟨.tabs, "tabs".toList, none, false⟩, ⟨.size, "indent-size".toList, none, true⟩,
    ⟨.output, "output".toList, some 'o', true⟩]

def isGiven {α : Type} [DecidableEq α] (key : α) (given : List (Given α)) : Bool :=
  given.any (·.key = key)

/-- The last value given to an option. -/
def lastValue? {α : Type} [DecidableEq α] (key : α) (given : List (Given α)) : Option Text :=
  (given.reverse.find? (·.key = key)).map Given.value

/-- A size is a whole number that is not negative. -/
def readSize? (word : Text) : Option Nat :=
  match readInteger? word with
  | some (.ofNat n) => some n
  | _ => none

/-- At most one operand, standard input standing in for none. -/
def readInput? : List Text → Option Channel
  | [] => some .standard
  | [word] => some (.ofWord word)
  | _ => none

def readConvert? (words : List Text) : Option (Job × Channel) := do
  let (given, operands) ← Words.read? ConvertOption.specs true words
  let input ← readInput? operands
  let size ←
    match lastValue? .size given with
    | none => some none
    | some word => (readSize? word).map some
  let output := ((lastValue? .output given).map Channel.ofWord).getD .standard
  some (.convert (isGiven .tabs given) size output, input)

/-- A command without options. -/
def readPlain? (job : Job) (words : List Text) : Option (Job × Channel) := do
  let (_, operands) ← Words.read? ([] : List (OptionSpec Empty)) true words
  let input ← readInput? operands
  some (job, input)

def commands : List (Text × (List Text → Option (Job × Channel))) :=
  [("convert".toList, readConvert?), ("rules".toList, readPlain? .rules),
    ("inspect".toList, readPlain? .inspect)]

/-- Nothing if the words ask for nothing that can be done. Where a word behind two dashes names no
command, the words are taken for options once more, and may ask for the version after all. -/
def Invocation.read? (words : List Text) : Option Invocation := do
  let (given, operands) ← Words.read? ProgramOption.specs false words
  if isGiven .version given then some .version
  else
    match operands with
    | [] => none
    | name :: rest =>
      match commands.lookup name with
      | some command => do
        let (task, input) ← command rest
        some (.job (isGiven .verbose given) task input)
      | none => do
        let (again, _) ← Words.read? ProgramOption.specs false operands
        if isGiven .version again then some .version else none

end StyleNest.CommandLine
