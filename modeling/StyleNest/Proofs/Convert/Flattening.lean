import StyleNest.Convert
import StyleNest.Proofs.Tree.OfSheet
import StyleNest.Proofs.Tree.Rebuild

/-!
A tree written as a flat sheet, and read again.

Every node gets a block with its whole path for a selector. The path is a chain of its own, which
is cut where it was cut before, and the blocks come in the order in which a walk meets the nodes,
so reading them builds the same tree.
-/

namespace StyleNest

open Selector Sheet

/-- The flat block of a node. -/
def Tree.Visit.flat (v : Tree.Visit) : Text := flatBlock v.path.flatten v.node.declarations

lemma Forest.flat_eq_visits (f : Forest) (above : List Text) :
    f.flat above.flatten = (f.visits above).flatMap Tree.Visit.flat := by
  induction f generalizing above with
  | nil => rfl
  | cons text ds below next ihb ihn =>
    have e : (above ++ [text]).flatten = above.flatten ++ text := by simp
    have hb := ihb (above ++ [text])
    rw [e] at hb
    simp [flat, visits, Tree.Visit.flat, hb, ihn]

lemma Tree.flat_eq_walk (t : Tree) :
    t.flat = (withPaths [] t.walk).flatMap fun x =>
      flatBlock x.1.flatten x.2.node.declarations := by
  have h : t.flat = t.visits.flatMap Visit.flat := t.children.flat_eq_visits []
  rw [h, Tree.withPaths_walk, List.flatMap_map]
  rfl

/-- The blocks of some nodes are read as rules that put each node's declarations where it was. -/
lemma yields_flat {vs : List Tree.Visit} (hv : ∀ v ∈ vs, v.Plain) :
    ∃ rs, Yields (vs.flatMap Tree.Visit.flat) rs ∧
      rs.flatMap Rule.placements = vs.map Tree.Visit.placement := by
  induction vs with
  | nil => exact ⟨[], yields_spaces isSpaces_nil, rfl⟩
  | cons v vs ih =>
    obtain ⟨⟨chain, hc, hpath⟩, hd⟩ := hv v (by simp)
    obtain ⟨rs, hrs, hplaced⟩ := ih fun x hx => hv x (by simp [hx])
    have hblock : Yields v.flat [⟨[chain], v.node.declarations⟩] := by
      rw [Tree.Visit.flat, ← hpath, Chain.flatten_path]
      exact yields_flatBlock hc hd
    refine ⟨⟨[chain], v.node.declarations⟩ :: rs, hblock.append hrs, ?_⟩
    rw [List.flatMap_cons, hplaced, List.map_cons]
    simp [Rule.placements, Tree.Visit.placement, hpath]

/-- **Writing the tree of a sheet flat loses nothing.** The flat sheet is accepted, its tree is the
one that was written, and converting it gives what the first sheet gives. -/
theorem ofRules_parse_flat {source : Text} {rules : List Rule}
    (hs : Sheet.parse source = .ok rules) :
    (Tree.ofRules rules).flat =
        (Tree.withPaths [] (Tree.ofRules rules).walk).flatMap (fun x =>
          flatBlock x.1.flatten x.2.node.declarations) ∧
      ∃ rules', Sheet.parse (Tree.ofRules rules).flat = .ok rules' ∧
        Tree.ofRules rules' = Tree.ofRules rules ∧
        ∀ s, convert s (Tree.ofRules rules).flat = convert s source := by
  have hplain := plain_of_parse hs
  have hflat : (Tree.ofRules rules).flat = (Tree.ofRules rules).visits.flatMap Tree.Visit.flat :=
    Forest.flat_eq_visits _ []
  obtain ⟨rules', hy, hplaced⟩ := yields_flat fun v hv => Tree.plain_of_mem_visits hplain hv
  rw [← hflat] at hy
  have htree : Tree.ofRules rules' = Tree.ofRules rules :=
    Tree.ofRules_eq_of_placements (Tree.distinct_ofRules rules)
      (Tree.declarations_ofRules_of_plain hplain) hplaced
  refine ⟨Tree.flat_eq_walk _, rules', hy.parse, htree, fun s => ?_⟩
  rw [convert, convert, hy.parse, hs, Except.map, Except.map, convertRules, convertRules, htree]

/-- Chains that come back to a node, a list of them, and a value with blanks behind it. -/
theorem ofRules_parse_flat_interleaved :
    ∃ rules rules',
      Sheet.parse "a b\x7bx:1\x7d c,a\n>d\x7by: 2 ;z:\x7da\x7bw:\x7b\x7d".toList = .ok rules ∧
        Sheet.parse ("a\x7bw: \x7b;\x7da b\x7bx: 1;\x7da\n>d\x7by: 2 ;z: ;\x7d" ++
          "c\x7by: 2 ;z: ;\x7d").toList = .ok rules' ∧
        Tree.ofRules rules' = Tree.ofRules rules := by
  obtain ⟨rules, hs⟩ : ∃ rules,
      Sheet.parse "a b\x7bx:1\x7d c,a\n>d\x7by: 2 ;z:\x7da\x7bw:\x7b\x7d".toList = .ok rules :=
    ⟨_, rfl⟩
  have e : (Tree.ofRules rules).flat =
      ("a\x7bw: \x7b;\x7da b\x7bx: 1;\x7da\n>d\x7by: 2 ;z: ;\x7d" ++
        "c\x7by: 2 ;z: ;\x7d").toList := by
    cases hs
    rfl
  obtain ⟨-, rules', hr, ht, -⟩ := ofRules_parse_flat hs
  exact ⟨rules, rules', hs, e ▸ hr, ht⟩

end StyleNest
