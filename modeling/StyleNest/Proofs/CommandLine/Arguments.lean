import StyleNest.CommandLine.Invocation
import StyleNest.Proofs.Text.Numeral

/-!
Words that ask for a conversion, and words that ask for a log.

Whatever a conversion may be asked for can be spelled. A request for a log that stands before all
other words changes nothing else that they ask for, because options only ever add to those before
them.
-/

namespace StyleNest.CommandLine

open Text

/-! ### Options before all others -/

namespace Words

variable {α : Type} {specs : List (OptionSpec α)} {mixed : Bool}

/-- The same words behind some that gave options already, the latest of them first. -/
def behind (older : List (Given α)) (w : Words α) : Words α :=
  { w with given := w.given ++ older }

lemma long?_behind (older : List (Given α)) (w : Words α) (word : Text) :
    long? specs (w.behind older) word = (long? specs w word).map (behind older) := by
  simp only [long?]
  cases specs.find? (·.long = (word.span (· != '=')).1) with
  | none => rfl
  | some spec =>
    simp only [Option.bind_eq_bind, Option.bind_some]
    split <;> rfl

lemma letters?_behind (older : List (Given α)) (w : Words α) (word : Text) :
    letters? specs (w.behind older) word = (letters? specs w word).map (behind older) := by
  induction word generalizing w with
  | nil => rfl
  | cons c cs ih =>
    simp only [letters?]
    cases specs.find? (·.letter = some c) with
    | none => rfl
    | some spec =>
      simp only [Option.bind_eq_bind, Option.bind_some]
      split
      · rfl
      · rfl
      · exact ih (w.give spec.key [])

lemma step?_behind (older : List (Given α)) (w : Words α) (word : Text) :
    step? specs mixed (w.behind older) word = (step? specs mixed w word).map (behind older) := by
  obtain ⟨given, operands, phase⟩ := w
  cases phase with
  | value key => rfl
  | operands => rfl
  | options =>
    simp only [step?, behind]
    split
    · rfl
    · rfl
    · rfl
    -- What is left is a long option, letters behind a dash, and an operand.
    · exact long?_behind older ⟨given, operands, .options⟩ _
    · exact letters?_behind older ⟨given, operands, .options⟩ _
    · cases mixed <;> rfl

lemma foldlM_behind (older : List (Given α)) (w : Words α) (words : List Text) :
    words.foldlM (step? specs mixed) (w.behind older) =
      (words.foldlM (step? specs mixed) w).map (behind older) := by
  induction words generalizing w with
  | nil => rfl
  | cons word words ih =>
    rw [List.foldlM_cons, List.foldlM_cons, step?_behind]
    cases step? specs mixed w word with
    | none => rfl
    | some w' => exact ih w'

/-- Behind the last option, words are operands. -/
lemma foldlM_operands (given : List (Given α)) (operands words : List Text) :
    words.foldlM (step? specs mixed) ⟨given, operands, .operands⟩ =
      some ⟨given, words.reverse ++ operands, .operands⟩ := by
  induction words generalizing operands with
  | nil => rfl
  | cons word words ih =>
    rw [List.foldlM_cons, List.reverse_cons, List.append_assoc]
    exact ih (word :: operands)

/-- A first word that gives an option and nothing else is heard before all others. -/
lemma read?_cons {word : Text} {older : List (Given α)}
    (h : step? specs mixed initial word = some (initial.behind older)) (words : List Text) :
    read? specs mixed (word :: words) =
      (read? specs mixed words).map fun x => (older.reverse ++ x.1, x.2) := by
  have hbehind : (word :: words).foldlM (step? specs mixed) initial =
      (words.foldlM (step? specs mixed) initial).map (behind older) := by
    rw [List.foldlM_cons, h]
    exact foldlM_behind older initial words
  rw [read?, read?, hbehind]
  cases words.foldlM (step? specs mixed) initial with
  | none => rfl
  | some w =>
    obtain ⟨given, operands, phase⟩ := w
    cases phase <;> simp [behind]

end Words

/-- Asks for a log besides. -/
def Invocation.verbosely : Invocation → Invocation
  | .version => .version
  | .job _ task input => .job true task input

/-- **A request for a log changes nothing else that is asked for.** -/
theorem read?_verbose {word : Text} (hw : word = "-v".toList ∨ word = "--verbose".toList)
    (words : List Text) :
    Invocation.read? (word :: words) = (Invocation.read? words).map Invocation.verbosely := by
  have hstep : Words.step? ProgramOption.specs false Words.initial word =
      some (Words.initial.behind [⟨.verbose, []⟩]) := by
    rcases hw with rfl | rfl <;> rfl
  rw [Invocation.read?, Words.read?_cons hstep, Invocation.read?]
  cases Words.read? ProgramOption.specs false words with
  | none => rfl
  | some x =>
    obtain ⟨given, operands⟩ := x
    have hversion : isGiven .version (⟨.verbose, []⟩ :: given) = isGiven .version given := by
      simp [isGiven]
    have hverbose : isGiven .verbose (⟨.verbose, []⟩ :: given) = true := by simp [isGiven]
    simp only [Option.map_some, Option.bind_eq_bind, Option.bind_some, List.reverse_singleton,
      List.singleton_append, hversion, hverbose]
    split
    · rfl
    · cases operands with
      | nil => rfl
      | cons name rest =>
        simp only
        cases commands.lookup name with
        | some command => cases h : command rest <;> simp [h, Invocation.verbosely]
        | none =>
          cases Words.read? ProgramOption.specs false (name :: rest) with
          | none => rfl
          | some again => cases h : isGiven .version again.1 <;> simp [h, Invocation.verbosely]

/-! ### Words for a conversion -/

/-- The words behind a command are its own. -/
lemma read?_convert (words : List Text) :
    Invocation.read? ("convert".toList :: words) =
      (readConvert? words).map fun x => .job false x.1 x.2 := by
  have hwords : Words.read? ProgramOption.specs false ("convert".toList :: words) =
      some ([], "convert".toList :: words) := by
    have hfold : ("convert".toList :: words).foldlM (Words.step? ProgramOption.specs false)
        Words.initial = some ⟨[], words.reverse ++ ["convert".toList], .operands⟩ :=
      Words.foldlM_operands [] ["convert".toList] words
    rw [Words.read?, hfold]
    simp
  rw [Invocation.read?, hwords]
  have hlookup : commands.lookup "convert".toList = some readConvert? := rfl
  simp only [Option.bind_eq_bind, Option.bind_some, hlookup]
  cases readConvert? words <;> rfl

def Channel.word : Channel → Text
  | .standard => ['-']
  | .file path => path

lemma Channel.ofWord_word {channel : Channel} (h : channel ≠ .file ['-']) :
    Channel.ofWord channel.word = channel := by
  cases channel with
  | standard => rfl
  | file path =>
    refine if_neg fun e => h ?_
    rw [← e]
    rfl

/-- The words of a conversion, its output always named. -/
def convertWords (tabs : Bool) (size : Option Nat) (output input : Channel) : List Text :=
  (if tabs then ["--tabs".toList] else []) ++
    (size.elim [] fun n => ["--indent-size".toList, natural n]) ++
    ["-o".toList, output.word, "--".toList, input.word]

/-- The options in the words of a conversion. -/
def convertGiven (tabs : Bool) (size : Option Nat) (output : Channel) :
    List (Given ConvertOption) :=
  (if tabs then [⟨.tabs, []⟩] else []) ++ (size.elim [] fun n => [⟨.size, natural n⟩]) ++
    [⟨.output, output.word⟩]

lemma read?_convertGiven (tabs : Bool) (size : Option Nat) (output input : Channel) :
    Words.read? ConvertOption.specs true (convertWords tabs size output input) =
      some (convertGiven tabs size output, [input.word]) := by
  cases tabs <;> cases size <;> rfl

/-- **Every conversion can be asked for**, but for a file with the name of a stream, and a size
with more digits than are read. -/
theorem read?_convertWords {size : Option Nat} {output input : Channel}
    (hsize : ∀ n ∈ size, (natural n).length ≤ maxDigits) (ho : output ≠ .file ['-'])
    (hi : input ≠ .file ['-']) (tabs : Bool) :
    Invocation.read? ("convert".toList :: convertWords tabs size output input) =
      some (.job false (.convert tabs size output) input) := by
  have hinput : readInput? [input.word] = some input := by
    rw [readInput?, Channel.ofWord_word hi]
  have htabs : isGiven .tabs (convertGiven tabs size output) = tabs := by
    cases tabs <;> cases size <;> rfl
  have houtput : lastValue? .output (convertGiven tabs size output) = some output.word := by
    cases tabs <;> cases size <;> rfl
  have hlast : lastValue? .size (convertGiven tabs size output) = size.map natural := by
    cases tabs <;> cases size <;> rfl
  have hread : ∀ n ∈ size, readSize? (natural n) = some n := fun n hn => by
    rw [readSize?, readInteger?_natural (hsize n hn)]
  rw [read?_convert, readConvert?, read?_convertGiven]
  simp only [Option.bind_eq_bind, Option.bind_some, hinput, htabs, houtput, hlast,
    Option.map_some, Option.getD_some, Channel.ofWord_word ho]
  cases size with
  | none => rfl
  | some n => simp [hread]

end StyleNest.CommandLine
