import StyleNest.Proofs.CommandLine.Delivery
import StyleNest.Proofs.Convert.Characters
import StyleNest.Proofs.Text.LineEnds
import StyleNest.Proofs.Text.TerminalCode

/-!
Runs that convert a sheet.

A refused sheet leaves every file as it was, and an accepted one changes no file but the output,
which may be the input. What is written is the text that the library makes of the sheet, less the
codes for a terminal in it.
-/

namespace StyleNest.CommandLine

open Text Sheet

lemma report_convert {text : Text} {rules : List Rule} (h : Sheet.parse text = .ok rules)
    (tabs : Bool) (size : Option Nat) (output : Channel) :
    ∃ events, Job.report (.convert tabs size output) text =
      .ok ⟨events, dropCodes (convertRules (settings tabs size) rules), output⟩ := by
  rw [Job.report, h]
  exact ⟨_, rfl⟩

lemma unlines_parseErrorLine (e : Error) :
    unlines [parseErrorLine e] = "Parse error: ".toList ++ e.diagnostic.message ++ ['\n'] :=
  unlines_singleton _

/-! ### Codes for a terminal -/

/-- A conversion holds a code only if an escape stands in the sheet. -/
lemma not_holdsCode_of_escape_not_mem {source : Text} {rules : List Rule} (tabs : Bool)
    (size : Option Nat) (hs : Sheet.parse (unifyNewlines source) = .ok rules)
    (hne : escape ∉ source) : ¬ HoldsCode (convertRules (settings tabs size) rules) := by
  rintro ⟨code, ⟨ps, c, -, -, rfl⟩, hin⟩
  have hmem : escape ∈ convertRules (settings tabs size) rules :=
    hin.subset (List.mem_cons_self ..)
  rcases mem_convertRules hs hmem with h | h | h
  · cases tabs <;> cases h
  · exact absurd h (by decide)
  · exact hne (mem_of_mem_unifyNewlines h (by decide))

/-- **A conversion is all or nothing, and prints what the library does, less the codes for a
terminal.** Where the sheet is refused, nothing is written but the report, and every file is left
as it was. Where it is accepted, the whole text is printed or becomes the content of the output,
and no other file is changed. It is the text that the library makes of the sheet exactly if that
holds no code. Whatever a conversion needs can be asked for. The other commands change no file, and
a request for a log changes nothing but the error stream. -/
theorem run_convert (words : List Text) (stdin : Text) (files : Directory) :
    (∀ (verbose tabs : Bool) (size : Option Nat) (output input : Channel) (source : Text),
      Invocation.read? words = some (.job verbose (.convert tabs size output) input) →
      input? stdin files input = some source →
      (∀ e, Sheet.parse (unifyNewlines source) = .error e →
        run words stdin files =
          ⟨1, [], "Parse error: ".toList ++ e.diagnostic.message ++ ['\n'], files⟩) ∧
      ∀ rules, Sheet.parse (unifyNewlines source) = .ok rules → output.IsWritable files →
        ∀ text, text = Scss.print ⟨[if tabs then '\t' else ' '], size.map Int.ofNat⟩
            (Tree.ofRules rules) →
          Delivers (dropCodes text) files output (run words stdin files) ∧
          (dropCodes text = text ↔ ¬ HoldsCode text) ∧ (escape ∉ source → ¬ HoldsCode text)) ∧
    (∀ (tabs : Bool) (size : Option Nat) (output input : Channel),
      (∀ n ∈ size, (natural n).length ≤ maxDigits) → output ≠ .file ['-'] → input ≠ .file ['-'] →
      Invocation.read? ("convert".toList :: convertWords tabs size output input) =
        some (.job false (.convert tabs size output) input)) ∧
    (∀ (verbose : Bool) (job : Job) (input : Channel),
      Invocation.read? words = some (.job verbose job input) → job = .rules ∨ job = .inspect →
      (run words stdin files).files = files) ∧
    ∀ word, word = "-v".toList ∨ word = "--verbose".toList →
      ∃ err, run (word :: words) stdin files = { run words stdin files with err := err } := by
  refine ⟨?_, ?_, ?_, ?_⟩
  · intro verbose tabs size output input source hw hi
    constructor
    · intro e he
      rw [run_of_report_error hw hi (report_error he _), unlines_parseErrorLine]
    · rintro rules hs ho text rfl
      have htext : convertRules (settings tabs size) rules =
          Scss.print ⟨[if tabs then '\t' else ' '], size.map Int.ofNat⟩ (Tree.ofRules rules) :=
        convertRules_eq_print _ rules
      obtain ⟨events, hr⟩ := report_convert hs tabs size output
      have hdelivers : Delivers (dropCodes (convertRules (settings tabs size) rules)) files output
          (run words stdin files) := by
        rw [run_of_report_ok hw hi hr]
        exact delivers_of_isWritable (r := ⟨events, _, output⟩) ho
      rw [← htext]
      exact ⟨hdelivers, dropCodes_eq_self_iff _, not_holdsCode_of_escape_not_mem tabs size hs⟩
  · intro tabs size output input hsize ho hi
    exact read?_convertWords hsize ho hi tabs
  · intro verbose job input hw hj
    exact files_run hw hj
  · intro word hv
    exact exists_run_eq_of_verbose hv words stdin files

/-- A sheet is converted in place, and one that is refused on its second line stays where it is. -/
theorem run_convert_in_place :
    Delivers "b \x7b\n\tx: 1\n;\n\x7d\n".toList
        [("a".toList, "b\x7bx:1\r\n\x7d".toList), ("c".toList, [])] (.file "a".toList)
        (run ["-v".toList, "convert".toList, "--tabs".toList, "-oa".toList, "./a".toList] []
          [("a".toList, "b\x7bx:1\r\n\x7d".toList), ("c".toList, [])]) ∧
      run ["convert".toList, "-oa".toList, "a".toList] [] [("a".toList, "b\x7b\r!".toList)] =
        ⟨1, [], "Parse error: Unexpected character '!' at line 2, column 1\n".toList,
          [("a".toList, "b\x7b\r!".toList)]⟩ := by
  constructor
  · obtain ⟨hconvert, -, -, -⟩ := run_convert
      ["-v".toList, "convert".toList, "--tabs".toList, "-oa".toList, "./a".toList] []
      [("a".toList, "b\x7bx:1\r\n\x7d".toList), ("c".toList, [])]
    obtain ⟨-, haccepted⟩ := hconvert true true none (.file "a".toList) (.file "./a".toList)
      "b\x7bx:1\r\n\x7d".toList rfl rfl
    obtain ⟨hdelivers, hself, hcode⟩ := haccepted _ rfl ⟨_, rfl⟩ _ rfl
    rw [hself.mpr (hcode (by decide))] at hdelivers
    exact hdelivers
  · obtain ⟨hconvert, -, -, -⟩ := run_convert ["convert".toList, "-oa".toList, "a".toList] []
      [("a".toList, "b\x7b\r!".toList)]
    obtain ⟨hrefused, -⟩ := hconvert false false none (.file "a".toList) (.file "a".toList)
      "b\x7b\r!".toList rfl rfl
    rw [hrefused (.unexpected (some '!') ⟨2, 1⟩) rfl]
    decide +kernel

/-- A value that holds a code is not printed as it stands in the sheet. -/
theorem run_convert_drops_code :
    Invocation.read? ["convert".toList] =
        some (.job false (.convert false none .standard) .standard) ∧
      ∃ rules, Sheet.parse (unifyNewlines "a\x7bx:\x1b[1m\x7d".toList) = .ok rules ∧
        Scss.print ⟨[' '], none⟩ (Tree.ofRules rules) =
          "a \x7b\n    x: \x1b[1m;\n\x7d\n".toList ∧
        run ["convert".toList] "a\x7bx:\x1b[1m\x7d".toList [] =
          ⟨0, "a \x7b\n    x: ;\n\x7d\n".toList, [], []⟩ :=
  ⟨rfl, _, rfl, rfl, rfl⟩

end StyleNest.CommandLine
