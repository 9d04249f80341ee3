import StyleNest.CommandLine.Directory
import StyleNest.CommandLine.Report

/-!
A run of the program. It asks the system that it runs on for its input and to write its output, and
it is the same run whatever system that is. Here it is a standard input and a directory.

A file is opened for writing only when there is something to write, so a run that fails leaves every
file as it was.

Left out are the texts that explain a misuse, and all help: words that ask for help end a run like a
misuse here, where they should have it shown and the exit code 0.
-/

namespace StyleNest.CommandLine

open Text Sheet

/-- What a run can ask of the system that it runs on. -/
structure Host (m : Type → Type) where
  /-- What comes through a channel, if it can be read. -/
  read : Channel → m (Option Text)
  /-- Makes a text the content of the file at a path. -/
  write : (path text : Text) → m (Except OpenError Unit)

/-- The exit code and the two output streams. -/
structure Ending where
  exit : Nat
  out : Text
  err : Text
  deriving DecidableEq, Repr

/-- The text that explains a misuse is left out. -/
def Ending.misuse : Ending := ⟨2, [], []⟩

def versionLine : Text := "css2scss, version 0.1.0".toList

def parseErrorLine (e : Error) : Text := "Parse error: ".toList ++ e.diagnostic.message

def openErrorLine (path : Text) (e : OpenError) : Text :=
  "Error: Could not open file ".toList ++ quoted path ++ ": ".toList ++ e.message

/-- What is logged, if a log is asked for. -/
def Report.log (r : Report) (verbose : Bool) : List Text :=
  if verbose then r.events.map Event.line else []

namespace Host

variable {m : Type → Type} [Monad m]

/-- Hands a report out: to the output stream, or into a file. -/
def deliver (host : Host m) (verbose : Bool) (r : Report) : m Ending := do
  match r.output with
  | .standard => return ⟨0, r.text, unlines (r.log verbose)⟩
  | .file path =>
    match ← host.write path r.text with
    | .ok () => return ⟨0, [], unlines (r.log verbose)⟩
    | .error e => return ⟨1, [], unlines (r.log verbose ++ [openErrorLine path e])⟩

/-- A job on what has been read. -/
def work (host : Host m) (verbose : Bool) (job : Job) (source : Text) : m Ending :=
  match job.report (unifyNewlines source) with
  | .error e => return ⟨1, [], unlines [parseErrorLine e]⟩
  | .ok report => host.deliver verbose report

def run (host : Host m) (words : List Text) : m Ending := do
  match Invocation.read? words with
  | none => return .misuse
  | some .version => return ⟨0, unlines [versionLine], []⟩
  | some (.job verbose job input) =>
    match ← host.read input with
    | none => return .misuse
    | some source => host.work verbose job source

end Host

/-! ### Runs in a directory -/

def input? (stdin : Text) (files : Directory) : Channel → Option Text
  | .standard => some stdin
  | .file path => files.read? path

/-- The system that has a standard input and a directory. -/
def Host.inDirectory (stdin : Text) : Host (StateM Directory) where
  read channel := fun files => (input? stdin files channel, files)
  write path text := fun files =>
    match files.write path text with
    | .ok files' => (.ok (), files')
    | .error e => (.error e, files)

/-- How a run ends, and the files afterwards. -/
structure Outcome where
  exit : Nat
  out : Text
  err : Text
  files : Directory
  deriving DecidableEq, Repr

def outcome (x : StateM Directory Ending) (files : Directory) : Outcome :=
  let (ending, files') := x.run files
  ⟨ending.exit, ending.out, ending.err, files'⟩

section

variable {stdin path text : Text} {files files' : Directory}

@[simp] theorem outcome_pure (ending : Ending) (files : Directory) :
    outcome (pure ending) files = ⟨ending.exit, ending.out, ending.err, files⟩ := rfl

/-- Reading changes no file. -/
theorem outcome_read (channel : Channel) (f : Option Text → StateM Directory Ending) :
    outcome ((Host.inDirectory stdin).read channel >>= f) files =
      outcome (f (input? stdin files channel)) files := rfl

theorem outcome_write_of_ok (h : files.write path text = .ok files')
    (f : Except OpenError Unit → StateM Directory Ending) :
    outcome ((Host.inDirectory stdin).write path text >>= f) files =
      outcome (f (.ok ())) files' := by
  have hwrite : ((Host.inDirectory stdin).write path text).run files = (.ok (), files') := by
    simp only [Host.inDirectory, StateT.run, h]
  simp only [outcome, StateT.run_bind, hwrite]
  rfl

/-- A file that cannot be written stays as it is. -/
theorem outcome_write_of_error {e : OpenError} (h : files.write path text = .error e)
    (f : Except OpenError Unit → StateM Directory Ending) :
    outcome ((Host.inDirectory stdin).write path text >>= f) files =
      outcome (f (.error e)) files := by
  have hwrite : ((Host.inDirectory stdin).write path text).run files = (.error e, files) := by
    simp only [Host.inDirectory, StateT.run, h]
  simp only [outcome, StateT.run_bind, hwrite]
  rfl

end

def run (words : List Text) (stdin : Text) (files : Directory) : Outcome :=
  outcome ((Host.inDirectory stdin).run words) files

end StyleNest.CommandLine
