import StyleNest.Proofs.Scss.Layout
import StyleNest.Proofs.Tree.Walk

/-!
A node printed by itself and as a part of its tree.

Within a block the lines depend on the depth only by their place: the same blocks further in are the
same lines, each moved in. What changes is the first level, whose headers stand alone when their
node is the root of a print and go on with a selector when it is not.
-/

namespace StyleNest.Scss

open Text Sheet

/-- The mark before a header inside a block, for a text that begins with no blank. -/
def mark (text : Text) : Text := if text.head?.any isBlank then [] else ['&']

/-- A line `d` levels further in. -/
def Line.shift (d : Nat) : Line → Line
  | .empty => .empty
  | .content depth text => .content (depth + d) text

/-- A line that is written `d` levels further in, unless it is blank. -/
def Line.renderFurther (d : Nat) (level : Text) (l : Line) : Text :=
  if l = .empty then [] else times d level ++ l.render level

/-- The lines of a node on the first level, behind its header. -/
def body (node : Tree) : List Line :=
  node.declarations.map (fun d => .content 1 d.written) ++
    lines 1 (!node.declarations.isEmpty) node.children ++ [.content 0 ['}']]

/-! ### Lines further in -/

lemma trimLeft_eq_self_iff_any (text : Text) :
    trimLeft text = text ↔ text.head?.any isBlank = false := by
  rw [trimLeft_eq_self_iff]
  cases text <;> simp

lemma header_zero (text : Text) : header 0 text = trimLeft text := if_neg (by simp)

lemma header_of_pos {depth : Nat} (h : 0 < depth) (text : Text) :
    header depth text = mark text ++ trimLeft text := by
  by_cases hblank : text.head?.any isBlank
  · have hne : ¬ (0 < depth ∧ trimLeft text = text) := by
      rw [trimLeft_eq_self_iff_any, hblank]
      simp
    rw [header, if_neg hne, mark, if_pos hblank, List.nil_append]
  · have htext : trimLeft text = text := by
      rw [trimLeft_eq_self_iff_any]
      simpa using hblank
    rw [header, if_pos ⟨h, htext⟩, mark, if_neg hblank, htext]
    rfl

/-- Inside of a block the depth only places the lines. -/
lemma lines_add {depth : Nat} (h : 0 < depth) (d : Nat) (spaced : Bool) (f : Forest) :
    lines (depth + d) spaced f = (lines depth spaced f).map (Line.shift d) := by
  induction f generalizing depth spaced with
  | nil => rfl
  | cons text ds below next ihb ihn =>
    have hheader : header (depth + d) text = header depth text := by
      rw [header_of_pos h, header_of_pos (Nat.add_pos_left h d)]
    have hseparator : (if spaced then [Line.empty] else []).map (Line.shift d) =
        if spaced then [.empty] else [] := by
      cases spaced <;> rfl
    have hbelow := ihb (Nat.succ_pos depth) (!ds.isEmpty)
    have hsucc : depth + d + 1 = depth + 1 + d := by omega
    simp only [lines_cons, block, List.map_append, List.map_cons, List.map_nil, List.map_map,
      Function.comp_def, Line.shift, hheader, hseparator, hsucc, hbelow, ihn h]

/-- A block is its header and what stands behind one on the first level, moved in. -/
lemma block_eq (depth : Nat) (text : Text) (node : Tree) :
    block depth text node =
      .content depth (header depth text ++ [' ', '{']) :: (body node).map (Line.shift depth) := by
  have hlines := lines_add Nat.one_pos depth (!node.declarations.isEmpty) node.children
  rw [Nat.add_comm 1 depth] at hlines
  simp only [block, body, hlines, List.map_append, List.map_cons, List.map_nil, List.map_map,
    Function.comp_def, Line.shift, Nat.add_comm 1 depth, Nat.zero_add]

lemma lines_eq_nodes (depth : Nat) (spaced : Bool) (f : Forest) :
    lines depth spaced f = f.nodes.flatMap fun x =>
      (if spaced then [.empty] else []) ++ block depth x.1 x.2 := by
  induction f with
  | nil => rfl
  | cons text ds below next _ ih =>
    rw [lines_cons, Forest.nodes, List.flatMap_cons, ih, List.append_assoc]

/-! ### Lines with their indentation -/

lemma render_shift (d : Nat) (level : Text) (l : Line) :
    (l.shift d).render level = l.renderFurther d level := by
  cases l with
  | empty => rfl
  | content depth text =>
    have hne : Line.content depth text ≠ .empty := by simp
    rw [Line.shift, Line.render, Line.renderFurther, if_neg hne, Line.render, Nat.add_comm,
      times_add, List.append_assoc]

lemma map_render_block (level : Text) (depth : Nat) (text : Text) (node : Tree) :
    (block depth text node).map (Line.render level) =
      (times depth level ++ (header depth text ++ [' ', '{'])) ::
        (body node).map (Line.renderFurther depth level) := by
  rw [block_eq, List.map_cons, List.map_map]
  congr 1
  exact List.map_congr_left fun l _ => render_shift depth level l

lemma map_render_lines (level : Text) (depth : Nat) (ds : List Declaration) (f : Forest) :
    (lines depth (!ds.isEmpty) f).map (Line.render level) = f.nodes.flatMap fun x =>
      (if ds = [] then [] else [[]]) ++
        (times depth level ++ (header depth x.1 ++ [' ', '{'])) ::
          (body x.2).map (Line.renderFurther depth level) := by
  have hseparator : (if !ds.isEmpty then [Line.empty] else []).map (Line.render level) =
      if ds = [] then [] else [[]] := by
    cases ds <;> rfl
  simp only [lines_eq_nodes, List.map_flatMap, List.map_append, hseparator, map_render_block]

lemma map_renderFurther_zero (level : Text) (ls : List Line) :
    ls.map (Line.renderFurther 0 level) = ls.map (Line.render level) :=
  List.map_congr_left fun l _ => by cases l <;> rfl

/-- **A node is printed by itself as it is in its tree.** The block of a node stands at the node's
place in the walk. Between its declarations and its brace are the lines that print the node as a
root, written as many levels further in as the path to the node is long. Only the headers of the
node's children are not the same: one whose text begins with no blank is marked in the tree. -/
theorem print_subtree {t node : Tree} {above : List Text} {text : Text}
    (h : t.find? (above ++ [text]) = some node) :
    ∃ i before inner after,
      t.visits[i]? = some ⟨above ++ [text], node⟩ ∧ before.countP Line.opens = i ∧
      ofTree t = before ++ (.content above.length (header above.length text ++ [' ', '{']) ::
        (node.declarations.map (fun d => .content (above.length + 1) d.written) ++ inner ++
          [.content above.length ['}']])) ++ after ∧
      ∀ indent : Indent,
        let level := indent.level
        let separator := if node.declarations = [] then [] else [[]]
        let printed := fun ls : List Line => ls.map (Line.render level)
        print indent t = unlines (printed (ofTree t)) ∧
        printed (ofTree node) = node.children.nodes.flatMap (fun x =>
          separator ++ (trimLeft x.1 ++ [' ', '{']) :: printed (body x.2)) ∧
        printed inner = node.children.nodes.flatMap fun x =>
          separator ++
            (times (above.length + 1) level ++ (mark x.1 ++ trimLeft x.1 ++ [' ', '{'])) ::
            (body x.2).map (Line.renderFurther (above.length + 1) level) := by
  have hvisit : ⟨above ++ [text], node⟩ ∈ t.visits := by
    have hne : above ++ [text] ≠ [] := by simp
    obtain ⟨first, rest, hpath⟩ := List.exists_cons_of_ne_nil hne
    rw [hpath] at h ⊢
    exact Forest.mem_visits_of_find? [] h
  obtain ⟨i, hi⟩ := List.mem_iff_getElem?.mp hvisit
  have hwalk : t.walk[i]? = some ⟨above.length, text, node⟩ := by
    rw [Tree.walk_eq_visits, List.getElem?_map, hi]
    simp [Tree.Visit.entry]
  obtain ⟨before, after, hlines, hcount⟩ := exists_block _ hwalk
  refine ⟨i, before, lines (above.length + 1) (!node.declarations.isEmpty) node.children, after,
    hi, hcount, hlines, fun indent => ⟨rfl, ?_, ?_⟩⟩
  · have hroot := map_render_lines indent.level 0 node.declarations node.children
    simpa only [ofTree, header_zero, map_renderFurther_zero, times_zero, List.nil_append]
      using hroot
  · have hinner := map_render_lines indent.level (above.length + 1) node.declarations node.children
    simpa only [header_of_pos (Nat.succ_pos _)] using hinner

/-- Of two children the one that begins with no blank is marked, and theirs is marked in both. -/
theorem print_subtree_two_children :
    let x : Declaration := ⟨['x'], ['1']⟩
    let node : Tree := ⟨[x], .cons ":c".toList [] (.cons ".e".toList [] .nil .nil)
      (.cons " d".toList [] .nil .nil)⟩
    let t : Tree := ⟨[], .cons ['a'] [] (.cons " b".toList [x] node.children .nil) .nil⟩
    t.find? [['a'], " b".toList] = some node ∧
      (ofTree node).map (Line.render "\t".toList) =
        [[], ":c \x7b".toList, "\t&.e \x7b".toList, "\t\x7d".toList, "\x7d".toList,
          [], "d \x7b".toList, "\x7d".toList] ∧
      ∃ before inner after, ofTree t = before ++ (.content 1 "b \x7b".toList ::
          (.content 2 "x: 1;".toList :: inner ++ [.content 1 ['\x7d']])) ++ after ∧
        inner.map (Line.render "\t".toList) =
          [[], "\t\t&:c \x7b".toList, "\t\t\t&.e \x7b".toList, "\t\t\t\x7d".toList,
            "\t\t\x7d".toList, [], "\t\td \x7b".toList, "\t\t\x7d".toList] := by
  intro x node t
  have hfind : t.find? ([['a']] ++ [" b".toList]) = some node := rfl
  obtain ⟨_, before, inner, after, -, -, hlines, hprinted⟩ := print_subtree hfind
  obtain ⟨-, hroot, hinner⟩ := hprinted ⟨['\t'], none⟩
  exact ⟨hfind, hroot, before, inner, after, hlines, hinner⟩

end StyleNest.Scss
