import StyleNest.Proofs.CommandLine.Delivery
import StyleNest.Proofs.Json.ReadBack
import StyleNest.Proofs.Sheet.LineEnds

/-!
Runs that list the rules of a sheet.

What is printed is JSON in ASCII, and the rules are found again in it, so it tells the rules of two
sheets apart exactly when they differ.
-/

namespace StyleNest.CommandLine

open Text Sheet

/-- The words ask for the rules of an input that reads as `rules`, line ends being one to it. -/
def Lists (words : List Text) (stdin : Text) (files : Directory) (rules : List Rule) : Prop :=
  ∃ verbose input source, Invocation.read? words = some (.job verbose .rules input) ∧
    input? stdin files input = some source ∧ Sheet.parse (unifyNewlines source) = .ok rules

/-- The text of a listing. -/
def listing (rules : List Rule) : Text := unlines [(Json.ofRules rules).write 0]

lemma isAsciiLines_listing (rules : List Rule) : IsAsciiLines (listing rules) := by
  rw [listing, unlines_singleton]
  have hwrite : IsAsciiLines ((Json.ofRules rules).write 0) := Json.isAsciiLines_write _ 0
  have hend : IsAsciiLines ['\n'] := by decide
  exact hwrite.append hend

/-- A listing holds no code for a terminal. -/
lemma dropCodes_listing (rules : List Rule) : dropCodes (listing rules) = listing rules := by
  refine dropCodes_eq_self fun hmem => ?_
  have hescape := isAsciiLines_listing rules escape hmem
  revert hescape
  decide

/-- The rules that JSON spells, if it spells rules. -/
def rulesOf? (out : Text) : Option (List Rule) := (Json.read? out).bind Json.asRules?

lemma rulesOf?_listing (rules : List Rule) : rulesOf? (listing rules) = some rules := by
  have hread : Json.read? (listing rules) = some (Json.ofRules rules) := by
    rw [listing, unlines_singleton]
    exact Json.read?_write _ 0 (List.forall_mem_singleton.mpr rfl)
  rw [rulesOf?, hread, Option.bind_some, Json.asRules?_ofRules]

variable {words : List Text} {stdin : Text} {files : Directory} {rules : List Rule}

lemma Lists.run (h : Lists words stdin files rules) :
    ∃ err, run words stdin files = ⟨0, listing rules, err, files⟩ := by
  obtain ⟨verbose, input, source, hw, hi, hp⟩ := h
  obtain ⟨events, hreport⟩ : ∃ events, Job.report .rules (unifyNewlines source) =
      .ok ⟨events, listing rules, .standard⟩ := by
    rw [Job.report, hp]
    exact ⟨_, rfl⟩
  rw [run_of_report_ok hw hi hreport]
  exact ⟨_, rfl⟩

lemma Lists.out (h : Lists words stdin files rules) :
    (CommandLine.run words stdin files).out = listing rules := by
  obtain ⟨err, hrun⟩ := h.run
  rw [hrun]

lemma lists_stdin {text : Text} (h : Sheet.parse (unifyNewlines text) = .ok rules)
    (files : Directory) : Lists ["rules".toList] text files rules :=
  ⟨false, .standard, text, rfl, rfl, h⟩

/-- **The listing of a sheet tells its rules.** Whatever sheet is accepted can be listed, its line
ends made one. The listing is ASCII without codes for a terminal, it is JSON that spells the rules,
and no other rules have the same listing. -/
theorem run_rules :
    (∀ (words : List Text) (stdin : Text) (files : Directory) (rules : List Rule),
      Lists words stdin files rules →
        (run words stdin files).exit = 0 ∧ IsAscii (run words stdin files).out ∧
        dropCodes (run words stdin files).out = (run words stdin files).out ∧
        (Json.read? (run words stdin files).out).bind Json.asRules? = some rules) ∧
    (∀ (words words' : List Text) (stdin stdin' : Text) (files files' : Directory)
      (rules rules' : List Rule),
      Lists words stdin files rules → Lists words' stdin' files' rules' →
        ((run words stdin files).out = (run words' stdin' files').out ↔ rules = rules')) ∧
    ∀ (text : Text) (files : Directory) (rules : List Rule), Sheet.parse text = .ok rules →
      Lists ["rules".toList] text files (rules.map Rule.unified) ∧
      ('\r' ∉ text → Lists ["rules".toList] text files rules) := by
  refine ⟨?_, ?_, ?_⟩
  · intro words stdin files rules h
    obtain ⟨err, hrun⟩ := h.run
    rw [hrun]
    exact ⟨rfl, (isAsciiLines_listing rules).isAscii, dropCodes_listing rules,
      rulesOf?_listing rules⟩
  · intro words words' stdin stdin' files files' rules rules' h h'
    rw [h.out, h'.out]
    constructor
    · intro (hout : listing rules = listing rules')
      have hsome : some rules = some rules' := by
        rw [← rulesOf?_listing rules, hout, rulesOf?_listing rules']
      exact Option.some.inj hsome
    · rintro rfl
      rfl
  · intro text files rules h
    constructor
    · exact lists_stdin (parse_unified_of_parse h) files
    · intro hreturn
      refine lists_stdin ?_ files
      rwa [unifyNewlines_eq_self hreturn]

/-- Marks, a backslash, controls, a letter with an accent and a character beyond the first plane
are all told apart in a listing. -/
theorem run_rules_of_escapes :
    let text := "a[b='\x22'] , c\x7bx:\x5c\x1f\x7fé🎉\x7d".toList
    ∃ rules, Sheet.parse text = .ok rules ∧ Lists ["rules".toList] text [] rules ∧
      IsAscii (run ["rules".toList] text []).out ∧
      (Json.read? (run ["rules".toList] text []).out).bind Json.asRules? = some rules ∧
      (run ["rules".toList] text []).out ≠ (run ["rules".toList] "c\x7b\x7d".toList []).out := by
  intro text
  obtain ⟨hlisted, hequal, hlists⟩ := run_rules
  have hparse : Sheet.parse text = .ok _ := rfl
  have h := (hlists text [] _ hparse).2 (by decide)
  have h' := (hlists "c\x7b\x7d".toList [] _ rfl).2 (by decide)
  obtain ⟨-, hascii, -, hrules⟩ := hlisted _ _ _ _ h
  refine ⟨_, hparse, h, hascii, hrules, fun hout => ?_⟩
  cases (hequal _ _ _ _ _ _ _ _ h h').mp hout

/-- A return is listed as a line feed: what is found again in the listing are not the rules of the
text as it was given, and a text with other rules has the same listing. -/
theorem run_rules_unifies_return :
    let rules (value : Text) : List Rule := [⟨[[⟨['a'], .tag, by simp⟩]], [⟨['x'], value⟩]⟩]
    let text := "a\x7bx:1\r2\x7d".toList
    let text' := "a\x7bx:1\n2\x7d".toList
    Sheet.parse text = .ok (rules "1\r2".toList) ∧
      Sheet.parse text' = .ok (rules "1\n2".toList) ∧
      rules "1\r2".toList ≠ rules "1\n2".toList ∧
      (Json.read? (run ["rules".toList] text []).out).bind Json.asRules? =
        some (rules "1\n2".toList) ∧
      (run ["rules".toList] text []).out = (run ["rules".toList] text' []).out := by
  intro rules text text'
  have hlists : Lists ["rules".toList] text [] (rules "1\n2".toList) := lists_stdin rfl []
  have hlists' : Lists ["rules".toList] text' [] (rules "1\n2".toList) := lists_stdin rfl []
  refine ⟨rfl, rfl, by decide, ?_, ?_⟩
  · rw [hlists.out]
    exact rulesOf?_listing _
  · rw [hlists.out, hlists'.out]

end StyleNest.CommandLine
