import StyleNest.Proofs.CommandLine.Delivery
import StyleNest.Proofs.Tree.Count
import StyleNest.Proofs.Tree.OfSheet

/-!
Runs that show the tree of a sheet.

An outline has a line for each node of a walk, with the number of its declarations if it has any.
No chain of a sheet is empty, so nothing is declared at the root, which has no line, and the numbers
of the lines add up to the figure above them.
-/

namespace StyleNest.CommandLine

open Text Sheet

/-- The lines above an outline. -/
def figures (rules : List Rule) (declarations : Nat) : List Text :=
  ["Rules:        ".toList ++ natural rules.length,
    "Selectors:    ".toList ++ natural (rules.flatMap Rule.selectors).length,
    "Declarations: ".toList ++ natural declarations, [], "Tree:".toList]

/-- A node in an outline, without the number of its declarations. -/
def label (e : Tree.Entry) : Text := times (1 + e.depth) "  ".toList ++ trim e.text

/-- The number of a node's declarations as an outline shows it, which is not at all for none. -/
def shownCount (n : Nat) : Text := if n = 0 then [] else "  (".toList ++ natural n ++ [')']

lemma inspection_eq (rules : List Rule) :
    inspection rules = unlines (figures rules (Tree.ofRules rules).count ++
      (Tree.ofRules rules).walk.map fun e => label e ++ shownCount e.node.declarations.length) := by
  have hrows : ((Tree.ofRules rules).outline 0).map outlineLine =
      (Tree.ofRules rules).walk.map fun e =>
        label e ++ shownCount e.node.declarations.length := by
    rw [Tree.outline, List.map_map]
    refine List.map_congr_left fun e _ => ?_
    have hdepth : (0 + (e.depth : Int)).toNat = e.depth := by omega
    simp only [Function.comp_apply, outlineLine, label, shownCount, hdepth]
  rw [inspection, hrows]
  rfl

lemma report_inspect {text : Text} {rules : List Rule} (h : Sheet.parse text = .ok rules) :
    ∃ events, Job.report .inspect text = .ok ⟨events, inspection rules, .standard⟩ := by
  rw [Job.report, h]
  exact ⟨_, rfl⟩

lemma run_inspect {words : List Text} {stdin source : Text} {files : Directory} {verbose : Bool}
    {input : Channel} {rules : List Rule}
    (hw : Invocation.read? words = some (.job verbose .inspect input))
    (hi : input? stdin files input = some source)
    (hs : Sheet.parse (unifyNewlines source) = .ok rules) :
    ∃ err, run words stdin files = ⟨0, inspection rules, err, files⟩ := by
  obtain ⟨events, hreport⟩ := report_inspect hs
  rw [run_of_report_ok hw hi hreport]
  exact ⟨_, rfl⟩

/-- **Declarations are neither lost nor made.** A tree of rules holds as many as the rules hand out
to their chains, and those of a node and of the nodes below it are what a walk from there meets. In
the tree of a sheet none is at the root, so the numbers in the outline of an inspection add up to
the figure that stands above it. -/
theorem declarations_counted :
    (∀ rules : List Rule, (Tree.ofRules rules).count = (rules.map Rule.fanOut).sum) ∧
    (∀ node : Tree, node.count =
      node.declarations.length + (node.walk.map fun e => e.node.declarations.length).sum) ∧
    (∀ (source : Text) (rules : List Rule), Sheet.parse source = .ok rules →
      (∀ r ∈ rules, ∀ chain ∈ r.selectors, chain ≠ []) ∧
      (Tree.ofRules rules).declarations = []) ∧
    ∀ (words : List Text) (stdin source : Text) (files : Directory) (verbose : Bool)
      (input : Channel) (rules : List Rule),
      Invocation.read? words = some (.job verbose .inspect input) →
      input? stdin files input = some source →
      Sheet.parse (unifyNewlines source) = .ok rules →
      let entries := (Tree.ofRules rules).walk
      let counts := entries.map fun e => e.node.declarations.length
      ∃ err, run words stdin files =
        ⟨0, unlines (figures rules counts.sum ++
          entries.map fun e => label e ++ shownCount e.node.declarations.length), err, files⟩ := by
  refine ⟨Tree.count_ofRules, Tree.count_eq_sum_walk, ?_, ?_⟩
  · intro source rules hs
    have hplain := plain_of_parse hs
    exact ⟨fun r hr chain hc => ((hplain r hr).chains chain hc).ne_nil,
      Tree.declarations_ofRules_of_plain hplain⟩
  · intro words stdin source files verbose input rules hw hi hs entries counts
    have hroot : (Tree.ofRules rules).declarations = [] :=
      Tree.declarations_ofRules_of_plain (plain_of_parse hs)
    have hcount : (Tree.ofRules rules).count = counts.sum := by
      calc (Tree.ofRules rules).count
          = (Tree.ofRules rules).declarations.length + counts.sum := Tree.count_eq_sum_walk _
        _ = counts.sum := by rw [hroot, List.length_nil, Nat.zero_add]
    obtain ⟨err, hrun⟩ := run_inspect hw hi hs
    refine ⟨err, ?_⟩
    rw [hrun, inspection_eq, hcount]

/-- A chain that comes twice, on the way of which nothing is declared, and a rule without any. -/
theorem declarations_counted_twice :
    let text := "a b,a b\x7bx:1\x7d c\x7b\x7d".toList
    ∃ rules, Sheet.parse text = .ok rules ∧ (rules.map Rule.fanOut).sum = 2 ∧
      ∃ err, run ["inspect".toList] text [] =
        ⟨0, "Rules:        2\nSelectors:    3\nDeclarations: 2\n\n".toList ++
          "Tree:\n  a\n    b  (2)\n  c\n".toList, err, []⟩ := by
  intro text
  obtain ⟨hfan, -, -, hrun⟩ := declarations_counted
  obtain ⟨rules, hs⟩ : ∃ rules, Sheet.parse text = .ok rules := ⟨_, rfl⟩
  obtain ⟨err, h⟩ := hrun ["inspect".toList] text text [] false .standard rules rfl rfl hs
  refine ⟨rules, hs, ?_, err, ?_⟩
  · rw [← hfan]
    cases hs
    rfl
  · cases hs
    exact h

end StyleNest.CommandLine
