import StyleNest.Text.Basic

/-!
The words of a command line, told apart into options and operands. A long option stands behind two
dashes, letters behind one; a value follows in the same word or in the next one, whatever that is.
Two dashes alone end the options.
-/

namespace StyleNest.CommandLine

/-- An option that a command knows. -/
structure OptionSpec (α : Type) where
  key : α
  long : Text
  letter : Option Char
  takesValue : Bool

/-- An option as it was given, with an empty value where it takes none. -/
structure Given (α : Type) where
  key : α
  value : Text
  deriving DecidableEq, Repr

inductive Words.Phase (α : Type) where
  | options
  /-- The next word is the value of an option. -/
  | value (key : α)
  | operands

/-- What the words so far say, latest first. -/
structure Words (α : Type) where
  given : List (Given α)
  operands : List Text
  phase : Words.Phase α

namespace Words

variable {α : Type}

def initial : Words α := ⟨[], [], .options⟩

def give (w : Words α) (key : α) (value : Text) : Words α :=
  { w with given := ⟨key, value⟩ :: w.given, phase := .options }

/-- A long option, which a value may follow behind an equals sign. -/
def long? (specs : List (OptionSpec α)) (w : Words α) (word : Text) : Option (Words α) := do
  let (name, rest) := word.span (· != '=')
  let spec ← specs.find? (·.long = name)
  match spec.takesValue, rest with
  | true, [] => some { w with phase := .value spec.key }
  | true, _ :: value => some (w.give spec.key value)
  | false, [] => some (w.give spec.key [])
  | false, _ :: _ => none

/-- Letters behind one dash. A value takes all that is left of the word. -/
def letters? (specs : List (OptionSpec α)) (w : Words α) : Text → Option (Words α)
  | [] => some w
  | c :: cs => do
    let spec ← specs.find? (·.letter = some c)
    match spec.takesValue, cs with
    | true, [] => some { w with phase := .value spec.key }
    | true, _ => some (w.give spec.key cs)
    | false, _ => letters? specs (w.give spec.key []) cs

/-- An operand ends the options unless they may be mixed. -/
def operand (mixed : Bool) (w : Words α) (word : Text) : Words α :=
  { w with operands := word :: w.operands, phase := if mixed then w.phase else .operands }

def step? (specs : List (OptionSpec α)) (mixed : Bool) (w : Words α) (word : Text) :
    Option (Words α) :=
  match w.phase, word with
  | .value key, _ => some (w.give key word)
  | .operands, _ => some { w with operands := word :: w.operands }
  | .options, ['-', '-'] => some { w with phase := .operands }
  | .options, '-' :: '-' :: name => long? specs w name
  | .options, '-' :: c :: cs => letters? specs w (c :: cs)
  | .options, _ => some (w.operand mixed word)

/-- All words read, in their order; nothing if an option is unknown or lacks its value. -/
def read? (specs : List (OptionSpec α)) (mixed : Bool) (words : List Text) :
    Option (List (Given α) × List Text) := do
  let w ← words.foldlM (step? specs mixed) initial
  match w.phase with
  | .value _ => none
  | _ => some (w.given.reverse, w.operands.reverse)

end Words
end StyleNest.CommandLine
