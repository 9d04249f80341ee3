import StyleNest.Convert
import StyleNest.Proofs.Scss.ReadBack
import StyleNest.Proofs.Tree.Rebuild

/-!
Converting what a conversion has printed.

Blocks without blocks in them are rules of a flat sheet again, one for each child of the root, and
converting them changes nothing. A block inside a block is refused at its header, which is never
taken for a declaration.
-/

namespace StyleNest

open Text Selector Sheet Scss

/-- A rule with one chain of one component, for a child of the root. -/
def IsRuleFor (r : Rule) (x : Text × Tree) : Prop :=
  ∃ a : Component, a.text = x.1 ∧ r = ⟨[[a]], x.2.declarations⟩

variable {level : Text}

/-! ### Blocks of the first level -/

lemma rendered_declarations (depth : Nat) (ds : List Declaration) :
    rendered level (ds.map fun d => .content depth d.written) =
      ds.flatMap fun d => times depth level ++ d.written ++ ['\n'] := by
  simp [rendered, unlines, Line.render, List.flatMap_map]

lemma isSpaces_blank : IsSpaces [' '] := isSpaces_singleton rfl

lemma isSpaces_newline : IsSpaces ['\n'] := isSpaces_singleton rfl

/-- The header and the declarations of a block take the scan into the block. -/
lemma enters_rendered {a : Component} {ds : List Declaration} (ha : IsPlainChain [a])
    (hd : ∀ d ∈ ds, d.Plain) (hl : IsSpaces level) :
    Enters .outside (rendered level [.content 0 (header 0 a.text ++ [' ', '{'])] ++
        rendered level (ds.map fun d => .content 1 d.written))
      (.block (Draft.push ⟨[[a]], []⟩ ds)) := by
  have hheader : header 0 a.text = a.text := by
    have hhead := ha.head
    rw [Chain.text_cons, Chain.text_nil, List.append_nil] at hhead
    rw [header, if_neg (by simp)]
    exact trimLeft_of_head? hhead
  have hhead := (ha.enters_head isSpaces_blank).append
    (enters_block (d := ⟨[[a]], []⟩) isSpaces_newline)
  have hbody := enters_declarations (d := ⟨[[a]], []⟩) hd (isSpaces_times hl 1) isSpaces_newline
  rw [rendered_content, rendered_declarations, hheader]
  simpa using hhead.append hbody

/-- A block with no blocks in it is a rule. -/
lemma yields_rendered {a : Component} {ds : List Declaration} (ha : IsPlainChain [a])
    (hd : ∀ d ∈ ds, d.Plain) (hl : IsSpaces level) :
    Yields (renderedBlock level 0 a.text ds []) [⟨[[a]], ds⟩] := by
  have hclose : Closes (.block (Draft.push ⟨[[a]], []⟩ ds)) ['}'] ⟨[[a]], ds⟩ :=
    closes_singleton (by simp [Phase.move, Draft.rule, Draft.push, isSpace, isPropertyChar])
  have hblock := ((enters_rendered ha hd hl).closes hclose).yields
  have h := hblock.append (yields_spaces isSpaces_newline)
  rw [renderedBlock, List.nil_append, rendered_content 0 ['}'], ← List.append_assoc]
  simpa using h

/-! ### Blocks inside a block -/

lemma refuses_header {s : Text} {d : Draft} (hs : Reader.IsHeader s) :
    Refuses (.block d) (s ++ [' ', '{']) := by
  obtain ⟨⟨c, rest, rfl, hn, hb, hc⟩, -⟩ := hs
  have h : Refuses (.block d) (c :: (rest ++ [' ']) ++ ['{']) :=
    refuses_block hn hb fun hp => by simpa using hc hp
  simpa using h

/-- The first block inside another one is refused. -/
lemma refuses_lines {f : Forest} {d : Draft} (depth : Nat) (spaced : Bool) (hl : IsSpaces level)
    (hne : f ≠ .nil) (hf : ∀ text ∈ f.texts, IsLegible text) :
    Refuses (.block d) (rendered level (lines depth spaced f)) := by
  cases f with
  | nil => exact absurd rfl hne
  | cons text ds below next =>
    have hempty : IsSpaces (rendered level (if spaced then [.empty] else [])) := by
      cases spaced
      · exact isSpaces_nil
      · exact isSpaces_newline
    have hheader : Refuses (.block d) (header depth text ++ [' ', '{']) :=
      refuses_header (isHeader_header (hf text (by simp [Forest.texts])) depth)
    have hline : Refuses (.block d)
        (rendered level [.content depth (header depth text ++ [' ', '{'])]) := by
      rw [rendered_content]
      exact (enters_block (isSpaces_times hl depth)).refuses (hheader.append _)
    rw [rendered_lines_cons, renderedBlock]
    exact (enters_block hempty).refuses ((hline.append _).append _)

lemma refuses_rendered {a : Component} {ds : List Declaration} {below : Forest}
    (ha : IsPlainChain [a]) (hd : ∀ d ∈ ds, d.Plain) (hl : IsSpaces level) (hne : below ≠ .nil)
    (hb : ∀ text ∈ below.texts, IsLegible text) :
    Refuses .outside
      (renderedBlock level 0 a.text ds (rendered level (lines 1 (!ds.isEmpty) below))) := by
  have hinner := refuses_lines (d := Draft.push ⟨[[a]], []⟩ ds) 1 (!ds.isEmpty) hl hne hb
  have h := (enters_rendered ha hd hl).refuses (hinner.append (rendered level [.content 0 ['}']]))
  rw [renderedBlock, ← List.append_assoc]
  exact h

/-! ### All blocks -/

/-- A child of the root as the tree of a sheet can hold it. -/
structure IsBlock (x : Text × Tree) : Prop where
  chain : ∃ a : Component, IsPlainChain [a] ∧ a.text = x.1
  declarations : ∀ d ∈ x.2.declarations, d.Plain
  inner : ∀ text ∈ x.2.children.texts, IsLegible text

lemma yields_spaced (level : Text) (spaced : Bool) :
    Yields (rendered level (if spaced then [.empty] else [])) [] := by
  cases spaced
  · exact yields_spaces isSpaces_nil
  · exact yields_spaces isSpaces_newline

/-- Where no block stands in another one, each block is read as its rule. -/
lemma yields_lines {f : Forest} (spaced : Bool) (hl : IsSpaces level)
    (hf : ∀ x ∈ f.nodes, IsBlock x) (hleaf : ∀ x ∈ f.nodes, x.2.children = .nil) :
    ∃ rs, Yields (rendered level (lines 0 spaced f)) rs ∧ List.Forall₂ IsRuleFor rs f.nodes := by
  induction f with
  | nil => exact ⟨[], yields_spaces isSpaces_nil, .nil⟩
  | cons text ds below next _ ih =>
    rw [Forest.nodes, List.forall_mem_cons] at hf hleaf
    obtain ⟨⟨⟨a, ha, rfl⟩, hd, -⟩, hnext⟩ := hf
    obtain ⟨rfl, hleaf⟩ : below = .nil ∧ _ := hleaf
    obtain ⟨rs, hrs, hall⟩ := ih hnext hleaf
    refine ⟨⟨[[a]], ds⟩ :: rs, ?_, .cons ⟨a, rfl, rfl⟩ hall⟩
    have h := (yields_spaced level spaced).append ((yields_rendered ha hd hl).append hrs)
    rw [rendered_lines_cons]
    exact h

/-- Where a block stands in another one, the first such block is refused. -/
lemma refuses_of_nested {f : Forest} (spaced : Bool) (hl : IsSpaces level)
    (hf : ∀ x ∈ f.nodes, IsBlock x) (hnested : ∃ x ∈ f.nodes, x.2.children ≠ .nil) :
    Refuses .outside (rendered level (lines 0 spaced f)) := by
  induction f with
  | nil =>
    obtain ⟨x, hx, -⟩ := hnested
    cases hx
  | cons text ds below next _ ih =>
    rw [Forest.nodes, List.forall_mem_cons] at hf
    obtain ⟨⟨⟨a, ha, rfl⟩, hd, hinner⟩, hnext⟩ := hf
    rw [rendered_lines_cons]
    refine (yields_spaced level spaced).refuses ?_
    by_cases hbelow : below = .nil
    · subst hbelow
      obtain ⟨x, hx, hne⟩ := hnested
      rcases List.mem_cons.mp hx with rfl | hx
      · exact absurd rfl hne
      · exact (yields_rendered ha hd hl).refuses (ih hnext ⟨x, hx, hne⟩)
    · exact (refuses_rendered ha hd hl hbelow hinner).append _

/-! ### The children of the root -/

lemma isBlock_of_mem_nodes {f : Forest} (hf : ∀ v ∈ f.visits [], v.Plain) {x : Text × Tree}
    (hx : x ∈ f.nodes) : IsBlock x := by
  obtain ⟨hself, hbelow⟩ := Forest.mem_visits_of_mem_nodes [] hx
  obtain ⟨⟨chain, hc, hpath⟩, hd⟩ := hf _ hself
  refine ⟨?_, hd, fun text ht => ?_⟩
  · obtain ⟨a, rfl, ha⟩ := List.map_eq_singleton_iff.mp hpath
    exact ⟨a, hc, ha⟩
  · obtain ⟨t, ht⟩ := Forest.exists_mem_nodes ht
    have hv := hbelow _ (Forest.mem_visits_of_mem_nodes _ ht).1
    obtain ⟨⟨chain', hc', hpath'⟩, -⟩ := hf _ hv
    exact isLegible_of_mem_path hc' text (by simp [hpath'])

lemma placements_of_forall₂ {rs : List Rule} {xs : List (Text × Tree)}
    (h : List.Forall₂ IsRuleFor rs xs) :
    rs.flatMap Rule.placements = xs.map fun x => ([x.1], x.2.declarations) := by
  induction h with
  | nil => rfl
  | @cons r x rs xs hr _ ih =>
    obtain ⟨a, ha, rfl⟩ := hr
    rw [List.flatMap_cons, ih, List.map_cons]
    simp [Rule.placements, Chain.path, ha]

/-! ### Two conversions -/

/-- **A second conversion changes nothing or is refused, and nesting alone decides.** Where no
child of the root has children, the printed text is read as one rule for each child; where one has,
a character of the text is refused, and no settings change that. -/
theorem convert_convertRules {s : Settings} {source : Text} {rules : List Rule}
    (hs : Sheet.parse source = .ok rules) (hc : isSpace s.indentChar = true) :
    ((∀ x ∈ (Tree.ofRules rules).children.nodes, x.2.children = .nil) →
      (∃ rs, Sheet.parse (Scss.print s.indent (Tree.ofRules rules)) = .ok rs ∧
        List.Forall₂ IsRuleFor rs (Tree.ofRules rules).children.nodes) ∧
      convert s (Scss.print s.indent (Tree.ofRules rules)) =
        .ok (Scss.print s.indent (Tree.ofRules rules))) ∧
    ((∃ x ∈ (Tree.ofRules rules).children.nodes, x.2.children ≠ .nil) →
      ∃ (e : Sheet.Error) (c : Char) (place : Position),
        Sheet.parse (Scss.print s.indent (Tree.ofRules rules)) = .error e ∧
        (∀ s' : Settings, convert s' (Scss.print s.indent (Tree.ofRules rules)) = .error e) ∧
        e.diagnostic = ⟨[c], some place.line, some place.column, none⟩) := by
  have hplain := plain_of_parse hs
  have hl : IsSpaces s.indent.level := isSpaces_times (isSpaces_singleton hc) _
  have hf : ∀ x ∈ (Tree.ofRules rules).children.nodes, IsBlock x := fun x hx =>
    isBlock_of_mem_nodes (fun v hv => Tree.plain_of_mem_visits hplain hv) hx
  constructor
  · intro hleaf
    obtain ⟨rs, hy, hall⟩ := yields_lines (!(Tree.ofRules rules).declarations.isEmpty) hl hf hleaf
    have hp : Sheet.parse (Scss.print s.indent (Tree.ofRules rules)) = .ok rs := hy.parse
    have hplaced : rs.flatMap Rule.placements =
        (Tree.ofRules rules).visits.map Tree.Visit.placement := by
      rw [placements_of_forall₂ hall, Tree.visits, Forest.visits_of_leaf hleaf, List.map_map]
      rfl
    have htree : Tree.ofRules rs = Tree.ofRules rules :=
      Tree.ofRules_eq_of_placements (Tree.distinct_ofRules rules)
        (Tree.declarations_ofRules_of_plain hplain) hplaced
    refine ⟨⟨rs, hp, hall⟩, ?_⟩
    rw [convert, hp, Except.map, convertRules_eq_print, htree]
  · intro hnested
    have hr := refuses_of_nested (!(Tree.ofRules rules).declarations.isEmpty) hl hf hnested
    obtain ⟨c, place, hp⟩ := hr.parse
    refine ⟨_, c, place, hp, fun s' => ?_, rfl⟩
    exact convert_of_parse_error s' hp

/-- A value that looks like a block and an empty one, and a tag inside a block. -/
theorem convert_convertRules_flat_nested :
    isSpace '\t' = true ∧
      (∃ rules, Sheet.parse "b,>a\x7bx:\x7b ;y:\x7d".toList = .ok rules ∧
        (∀ x ∈ (Tree.ofRules rules).children.nodes, x.2.children = .nil) ∧
        convert ⟨'\t', some 0⟩
            "b \x7b\nx: \x7b ;\ny: ;\n\x7d\n>a \x7b\nx: \x7b ;\ny: ;\n\x7d\n".toList =
          .ok "b \x7b\nx: \x7b ;\ny: ;\n\x7d\n>a \x7b\nx: \x7b ;\ny: ;\n\x7d\n".toList) ∧
      ∃ rules, Sheet.parse "a\x7b\x7da b\x7bx:1\x7d".toList = .ok rules ∧
        (∃ x ∈ (Tree.ofRules rules).children.nodes, x.2.children ≠ .nil) ∧
        ∃ e c, ∃ place : Position,
          Sheet.parse "a \x7b\n\tb \x7b\n\t\tx: 1;\n\t\x7d\n\x7d\n".toList = .error e ∧
          convert ⟨' ', none⟩ "a \x7b\n\tb \x7b\n\t\tx: 1;\n\t\x7d\n\x7d\n".toList = .error e ∧
          e.diagnostic = ⟨[c], some place.line, some place.column, none⟩ := by
  have hc : isSpace '\t' = true := rfl
  obtain ⟨flat, hflat⟩ : ∃ rules, Sheet.parse "b,>a\x7bx:\x7b ;y:\x7d".toList = .ok rules :=
    ⟨_, rfl⟩
  obtain ⟨nested, hnested⟩ : ∃ rules, Sheet.parse "a\x7b\x7da b\x7bx:1\x7d".toList = .ok rules :=
    ⟨_, rfl⟩
  refine ⟨hc, ⟨flat, hflat, ?_⟩, nested, hnested, ?_⟩
  · have hleaf : ∀ x ∈ (Tree.ofRules flat).children.nodes, x.2.children = .nil := by
      cases hflat
      decide
    have h := ((convert_convertRules (s := ⟨'\t', some 0⟩) hflat hc).1 hleaf).2
    refine ⟨hleaf, ?_⟩
    cases hflat
    exact h
  · have hinner : ∃ x ∈ (Tree.ofRules nested).children.nodes, x.2.children ≠ .nil := by
      cases hnested
      decide
    obtain ⟨e, c, place, hp, hconvert, hd⟩ :=
      (convert_convertRules (s := ⟨'\t', none⟩) hnested hc).2 hinner
    refine ⟨hinner, e, c, place, ?_⟩
    cases hnested
    exact ⟨hp, hconvert ⟨' ', none⟩, hd⟩

end StyleNest
