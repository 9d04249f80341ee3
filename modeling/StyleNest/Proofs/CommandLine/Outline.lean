import StyleNest.Proofs.CommandLine.Inspection
import StyleNest.Proofs.Sheet.LineEnds
import StyleNest.Proofs.Text.Lines

/-!
The lines of an outline.

Each node of a tree is written as one row, with its text trimmed. Trimming leaves the line feeds
that stand behind a combinator, between the parentheses of a pseudo class or in the brackets of an
attribute, and there a row goes on over several lines. So an outline has a line for each node
exactly if no component of the sheet holds such a line feed.
-/

namespace StyleNest

open Text Selector Sheet

/-! ### Components that go over several lines -/

/-- A component that keeps a line feed when it is trimmed has room for one: a combinator stands
before it, or it is of a kind that has parentheses or brackets. -/
lemma Selector.Component.Spelled.of_newline_mem_trim {c : Component} (h : c.Spelled)
    (hn : '\n' ∈ trim c.text) :
    c.kind = .pseudoClass ∨ c.kind = .attribute ∨ ∃ x ∈ c.text, isCombinator x = true := by
  obtain ⟨p, q, e, hp, hq⟩ := h
  by_cases hblank : ∀ x ∈ p, isBlank x = true
  · have hmem : '\n' ∈ q := by
      rw [trim, e, trimLeft_append_of_blank hblank] at hn
      exact mem_of_mem_trim hn
    have hname : ∀ {s : Text}, (∀ x ∈ s, isNameChar x = true) → '\n' ∉ s := fun hs hm => by
      cases hs _ hm
    generalize c.kind = kind at hq
    cases hq with
    | @tag x s hx hs =>
      rcases List.mem_cons.mp hmem with rfl | hmem
      · rcases hx with hx | hx <;> cases hx
      · exact absurd hmem (hname hs)
    | id hs => exact absurd ((List.mem_cons.mp hmem).resolve_left (by decide)) (hname hs.2)
    | className hs => exact absurd ((List.mem_cons.mp hmem).resolve_left (by decide)) (hname hs.2)
    | pseudoClass => exact .inl rfl
    | pseudoElement => exact .inl rfl
    | _ => exact .inr (.inl rfl)
  · push Not at hblank
    obtain ⟨x, hx, hb⟩ := hblank
    refine .inr (.inr ⟨x, ?_, (hp x hx).resolve_left hb⟩)
    rw [e]
    exact List.mem_append_left q hx

namespace CommandLine

/-! ### Rows -/

/-- What an outline says of a node: its text, two columns further in for each level, and the number
of its declarations if it has any. -/
def row (e : Tree.Entry) : Text :=
  List.replicate (2 + 2 * e.depth) ' ' ++ trim e.text ++ shownCount e.node.declarations.length

lemma times_two_spaces (n : Nat) : times n "  ".toList = List.replicate (2 * n) ' ' := by
  induction n with
  | zero => rfl
  | succ n ih =>
    rw [times_succ, ih]
    rfl

lemma row_eq (e : Tree.Entry) : label e ++ shownCount e.node.declarations.length = row e := by
  have hindent : 2 * (1 + e.depth) = 2 + 2 * e.depth := by omega
  rw [label, times_two_spaces, hindent, row]

lemma count_newline_shownCount (n : Nat) : (shownCount n).count '\n' = 0 := by
  have hnumber : (natural n).count '\n' = 0 :=
    List.count_eq_zero.mpr fun h => by cases isDigit_of_mem_natural h
  unfold shownCount
  split_ifs
  · rfl
  · rw [List.count_append, List.count_append, hnumber]
    rfl

lemma count_newline_row (e : Tree.Entry) : (row e).count '\n' = (trim e.text).count '\n' := by
  have hindent : (List.replicate (2 + 2 * e.depth) ' ').count '\n' = 0 :=
    List.count_eq_zero.mpr fun h => by cases List.eq_of_mem_replicate h
  rw [row, List.count_append, List.count_append, hindent, count_newline_shownCount, Nat.zero_add,
    Nat.add_zero]

/-- No component of a rule holds a line feed, but at its ends. -/
def SingleLined (rules : List Rule) : Prop :=
  ∀ r ∈ rules, ∀ chain ∈ r.selectors, ∀ c ∈ chain, '\n' ∉ trim c.text

lemma newline_not_mem_rows_iff (rules : List Rule) :
    (∀ l ∈ (Tree.ofRules rules).walk.map row, '\n' ∉ l) ↔ SingleLined rules := by
  have hrow : ∀ e : Tree.Entry, '\n' ∉ row e ↔ '\n' ∉ trim e.text := fun e => by
    rw [← List.count_eq_zero, count_newline_row, List.count_eq_zero]
  rw [List.forall_mem_map]
  simp only [hrow]
  constructor
  · intro h r hr chain hc c hm
    obtain ⟨e, he, htext⟩ := Tree.exists_mem_walk_iff.mpr ⟨r, hr, chain, hc, c, hm, rfl⟩
    rw [← htext]
    exact h e he
  · intro h e he
    obtain ⟨r, hr, chain, hc, c, hm, htext⟩ := Tree.exists_mem_walk_iff.mp ⟨e, he, rfl⟩
    rw [← htext]
    exact h r hr chain hc c hm

/-- **An outline writes each node of the tree as one row, and has a line for each node exactly if no
component holds a line feed, but at its ends.** The rules are those of the sheet with its line ends
made one. A component that holds a line feed has a combinator, parentheses or brackets. -/
theorem run_inspect_outline (words : List Text) (stdin source : Text) (files : Directory)
    (verbose : Bool) (input : Channel) (rules : List Rule)
    (hw : Invocation.read? words = some (.job verbose .inspect input))
    (hi : input? stdin files input = some source) (hs : Sheet.parse source = .ok rules) :
    let unified := rules.map Rule.unified
    let entries := (Tree.ofRules unified).walk
    ('\r' ∉ source → unified = rules) ∧
    (∀ r ∈ unified, ∀ chain ∈ r.selectors, ∀ c ∈ chain, '\n' ∈ trim c.text →
      c.kind = .pseudoClass ∨ c.kind = .attribute ∨ ∃ x ∈ c.text, isCombinator x = true) ∧
    ∃ err outline,
      run words stdin files =
        ⟨0, unlines (figures unified (Tree.ofRules unified).count) ++ outline, err, files⟩ ∧
      outline = unlines (entries.map row) ∧
      (endedLines outline).length = (entries.map fun e => 1 + (trim e.text).count '\n').sum ∧
      ((endedLines outline).length = entries.length ↔ SingleLined unified) ∧
      (endedLines outline = entries.map row ↔ SingleLined unified) := by
  intro unified entries
  have hunified : Sheet.parse (unifyNewlines source) = .ok unified := parse_unified_of_parse hs
  refine ⟨fun hreturn => ?_, fun r hr chain hc c hm => ?_, ?_⟩
  · rw [unifyNewlines_eq_self hreturn, hs] at hunified
    exact (Except.ok.inj hunified).symm
  · have hplain := (plain_of_parse hunified r hr).chains chain hc
    exact (hplain.spelled.1 c hm).of_newline_mem_trim
  · obtain ⟨err, hrun⟩ := run_inspect hw hi hunified
    have hout : inspection unified =
        unlines (figures unified (Tree.ofRules unified).count) ++ unlines (entries.map row) := by
      simp only [inspection_eq, row_eq, unlines_append]
      rfl
    refine ⟨err, unlines (entries.map row), ?_, rfl, ?_, ?_, ?_⟩
    · rw [hrun, hout]
    · simp only [length_endedLines_unlines, List.map_map, Function.comp_def, count_newline_row]
    · rw [← newline_not_mem_rows_iff, ← length_endedLines_unlines_iff, List.length_map]
    · rw [← newline_not_mem_rows_iff, endedLines_unlines_iff]

/-- Blanks between parentheses, in brackets and behind a combinator stay on the line of their node,
and a line end before a combinator is trimmed. -/
theorem run_inspect_outline_of_blanks :
    let text := "a:not( b )\r\n> [c='d e' ]\x7bx:1;y:\x7d".toList
    ∃ rules err outline, Sheet.parse text = .ok rules ∧
      run ["inspect".toList] text [] =
        ⟨0, unlines (figures (rules.map Rule.unified) 2) ++ outline, err, []⟩ ∧
      endedLines outline =
        ["  a".toList, "    :not( b )".toList, "      > [c='d e' ]  (2)".toList] := by
  intro text
  obtain ⟨rules, hs⟩ : ∃ rules, Sheet.parse text = .ok rules := ⟨_, rfl⟩
  obtain ⟨-, -, err, outline, hrun, -, -, -, hlines⟩ :=
    run_inspect_outline ["inspect".toList] text text [] false .standard rules rfl rfl hs
  have hsingle : SingleLined (rules.map Rule.unified) := by
    cases hs
    unfold SingleLined
    decide
  refine ⟨rules, err, outline, hs, ?_, ?_⟩
  · rw [hrun]
    cases hs
    rfl
  · rw [hlines.mpr hsingle]
    cases hs
    rfl

/-- A line end behind a combinator breaks the line of its node: the tree has two nodes, and its
outline three lines. -/
theorem run_inspect_outline_broken :
    let text := "a\n>\nb\x7b\x7d".toList
    ∃ rules outline, Sheet.parse text = .ok rules ∧ (Tree.ofRules rules).walk.length = 2 ∧
      run ["inspect".toList] text [] = ⟨0, unlines (figures rules 0) ++ outline, [], []⟩ ∧
      endedLines outline = ["  a".toList, "    >".toList, ['b']] :=
  ⟨_, _, rfl, rfl, rfl, rfl⟩

end CommandLine
end StyleNest
