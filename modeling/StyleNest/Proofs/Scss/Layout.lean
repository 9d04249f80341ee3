import StyleNest.Proofs.Tree.Count
import StyleNest.Scss.Lines

/-!
The lines of a printed tree.

The tree settles the lines, their depths and their number. Each node has a block: a header, the
node's declarations and a closing brace, with the blocks of its children in between. The headers
stand in the order of a walk, each at the depth that the walk gives to its node. Settings decide
only how often the unit is written in front of a line.
-/

namespace StyleNest

open Text Sheet

namespace Text

lemma times_times (m n : Nat) (s : Text) : times m (times n s) = times (n * m) s := by
  induction m with
  | zero => rfl
  | succ m ih =>
    calc times (m + 1) (times n s) = times n s ++ times (n * m) s := by rw [times_succ, ih]
      _ = times (n * (m + 1)) s := by rw [← times_add, Nat.mul_succ, Nat.add_comm]

/-- Lines with line feeds between them and one at the end, and nothing for no lines. -/
def joined (ls : List Text) : Text := if ls = [] then [] else ['\n'].intercalate ls ++ ['\n']

lemma unlines_eq_joined (ls : List Text) : unlines ls = joined ls := by
  induction ls with
  | nil => rfl
  | cons l ls ih =>
    cases ls with
    | nil => simp [unlines, joined]
    | cons m ls =>
      have hrest : unlines (m :: ls) = ['\n'].intercalate (m :: ls) ++ ['\n'] := ih
      rw [joined, if_neg (List.cons_ne_nil _ _), List.intercalate_cons_cons, List.append_assoc,
        ← hrest]
      simp [unlines]

end Text

namespace Scss

/-! ### Blocks -/

/-- The lines of a node, its header being the first and its brace the last. -/
def block (depth : Nat) (text : Text) (node : Tree) : List Line :=
  .content depth (header depth text ++ [' ', '{']) ::
    (node.declarations.map (fun d => .content (depth + 1) d.written) ++
      lines (depth + 1) (!node.declarations.isEmpty) node.children ++ [.content depth ['}']])

lemma lines_cons (depth : Nat) (spaced : Bool) (text : Text) (ds : List Declaration)
    (below next : Forest) :
    lines depth spaced (.cons text ds below next) =
      (if spaced then [.empty] else []) ++
        (block depth text ⟨ds, below⟩ ++ lines depth spaced next) := by
  simp [lines, block]

/-- The line is a header. A declaration ends in a semicolon, and a block in a closing brace. -/
def Line.opens : Line → Bool
  | .empty => false
  | .content _ text => text.getLast? = some '{'

lemma opens_header (depth : Nat) (s : Text) : (Line.content depth (s ++ [' ', '{'])).opens := by
  simp [Line.opens]

lemma opens_written (depth : Nat) (d : Declaration) :
    (Line.content depth d.written).opens = false := by
  have hend : d.written.getLast? = some ';' := List.getLast?_concat ..
  rw [Line.opens, hend]
  rfl

lemma countP_opens_declarations (depth : Nat) (ds : List Declaration) :
    (ds.map fun d => Line.content depth d.written).countP Line.opens = 0 := by
  simp [opens_written]

lemma countP_opens_separator (spaced : Bool) :
    (if spaced then [Line.empty] else []).countP Line.opens = 0 := by
  cases spaced <;> rfl

/-- Each node has one header. -/
lemma countP_opens_lines (depth : Nat) (spaced : Bool) (f : Forest) :
    (lines depth spaced f).countP Line.opens = f.size := by
  induction f generalizing depth spaced with
  | nil => rfl
  | cons text ds below next ihb ihn =>
    have hbrace : (Line.content depth ['}']).opens = false := rfl
    simp only [lines_cons, block, List.countP_append, List.countP_cons, List.countP_nil,
      countP_opens_separator, countP_opens_declarations, opens_header, hbrace, ihb, ihn,
      Forest.size, Bool.false_eq_true, if_false, if_true]
    omega

lemma countP_opens_block (depth : Nat) (text : Text) (node : Tree) :
    (block depth text node).countP Line.opens = 1 + node.children.size := by
  have hlines := countP_opens_lines depth false (.cons text node.declarations node.children .nil)
  rw [lines_cons, if_neg Bool.false_ne_true, List.nil_append, List.countP_append] at hlines
  exact hlines

/-- The block of a node that a walk meets, behind the headers of the nodes met before. -/
lemma exists_block {f : Forest} {depth i : Nat} {e : Tree.Entry} (spaced : Bool)
    (h : (f.walk depth)[i]? = some e) :
    ∃ before after, lines depth spaced f = before ++ block e.depth e.text e.node ++ after ∧
      before.countP Line.opens = i := by
  induction f generalizing depth i spaced with
  | nil => cases h
  | cons text ds below next ihb ihn =>
    rw [lines_cons]
    cases i with
    | zero =>
      obtain rfl : ⟨depth, text, ⟨ds, below⟩⟩ = e := by simpa [Forest.walk] using h
      exact ⟨if spaced then [.empty] else [], lines depth spaced next, by simp,
        countP_opens_separator spaced⟩
    | succ i =>
      rw [Forest.walk, List.cons_append, List.getElem?_cons_succ] at h
      by_cases hi : i < (below.walk (depth + 1)).length
      · rw [List.getElem?_append_left hi] at h
        obtain ⟨before, after, hlines, hcount⟩ := ihb (!ds.isEmpty) h
        refine ⟨(if spaced then [.empty] else []) ++
            .content depth (header depth text ++ [' ', '{']) ::
              (ds.map (fun d => .content (depth + 1) d.written) ++ before),
          after ++ .content depth ['}'] :: lines depth spaced next, ?_, ?_⟩
        · simp [block, hlines]
        · simp only [List.countP_append, List.countP_cons, countP_opens_separator,
            countP_opens_declarations, opens_header, hcount, if_true]
          omega
      · have hle : (below.walk (depth + 1)).length ≤ i := Nat.le_of_not_lt hi
        rw [List.getElem?_append_right hle] at h
        obtain ⟨before, after, hlines, hcount⟩ := ihn spaced h
        refine ⟨(if spaced then [.empty] else []) ++ block depth text ⟨ds, below⟩ ++ before, after,
          by simp [hlines], ?_⟩
        rw [Forest.length_walk] at hcount hle
        simp only [List.countP_append, countP_opens_separator, countP_opens_block, hcount]
        omega

/-- The line is blank or lies at a greater depth. -/
def Line.IsBelow (depth : Nat) : Line → Prop
  | .empty => True
  | .content d _ => depth < d

lemma isBelow_lines {depth d : Nat} {spaced : Bool} {f : Forest} (hd : d < depth) :
    ∀ l ∈ lines depth spaced f, l.IsBelow d := by
  induction f generalizing depth spaced with
  | nil => simp [lines]
  | cons text ds below next ihb ihn =>
    intro l hl
    simp only [lines_cons, block, List.mem_append, List.mem_cons, List.mem_map,
      List.not_mem_nil, or_false] at hl
    rcases hl with hl | (rfl | (⟨x, -, rfl⟩ | hl) | rfl) | hl
    · split at hl
      · rw [List.mem_singleton.mp hl]
        trivial
      · cases hl
    · exact hd
    · exact Nat.lt_succ_of_lt hd
    · exact ihb (Nat.lt_succ_of_lt hd) l hl
    · exact hd
    · exact ihn hd l hl

/-! ### The number of lines -/

/-- The number of blank lines for some nodes: one for each child of a node with declarations. -/
def separators (nodes : List Tree) : Nat :=
  ((nodes.filter fun node => node.declarations ≠ []).map fun node => node.children.texts.length).sum

lemma separators_cons (node : Tree) (nodes : List Tree) :
    separators (node :: nodes) =
      (if !node.declarations.isEmpty then node.children.texts.length else 0) +
        separators nodes := by
  cases h : node.declarations <;> simp [separators, h]

lemma separators_append (xs ys : List Tree) :
    separators (xs ++ ys) = separators xs + separators ys := by
  simp [separators]

lemma length_lines (depth : Nat) (spaced : Bool) (f : Forest) :
    (lines depth spaced f).length = 2 * f.size + f.count +
      (if spaced then f.texts.length else 0) + separators ((f.walk depth).map Tree.Entry.node) := by
  induction f generalizing depth spaced with
  | nil => cases spaced <;> rfl
  | cons text ds below next ihb ihn =>
    simp only [lines_cons, block, Forest.walk, List.length_append, List.length_cons,
      List.length_nil, List.length_map, List.cons_append, List.map_cons, List.map_append,
      separators_cons, separators_append, ihb, ihn, Forest.size, Forest.count, Forest.texts]
    cases spaced <;> simp only [Bool.false_eq_true, if_false, if_true, List.length_nil,
      List.length_cons] <;> omega

/-! ### Settings -/

/-- A line behind its unit, which is written a number of times for each level. -/
def Line.indented (unit : Text) (size : Nat) : Line → Text
  | .empty => []
  | .content depth text => times (size * depth) unit ++ text

lemma render_times (unit : Text) (size : Nat) (l : Line) :
    l.render (times size unit) = l.indented unit size := by
  cases l with
  | empty => rfl
  | content depth text => rw [Line.render, Line.indented, times_times]

lemma print_eq_joined (i : Indent) (t : Tree) :
    print i t = joined ((ofTree t).map (Line.indented i.unit i.resolvedSize.toNat)) := by
  rw [print, unlines_eq_joined, Indent.level, List.map_congr_left fun l _ => render_times _ _ l]

/-- **Settings change the indentation and nothing else.** One list of lines is written under all of
them, each line behind the unit as often as the size and its depth say, and blank lines behind
nothing. There are two lines for each node below the root, one for each declaration there and a
blank one for each child of a node with declarations. The header and the brace of a node have the
depth that a walk gives to it, its declarations are one level deeper, and what else stands between
them is deeper as well. -/
theorem print_layout (t : Tree) :
    (∀ (unit : Text) (size : Int),
      print ⟨unit, some size⟩ t = joined ((ofTree t).map (Line.indented unit size.toNat))) ∧
    (∀ unit : Text, print ⟨unit, none⟩ t =
      joined ((ofTree t).map (Line.indented unit (if unit = ['\t'] then 1 else 4)))) ∧
    (ofTree t).length = 2 * t.walk.length +
      (t.walk.map fun e => e.node.declarations.length).sum +
      (((t :: t.walk.map Tree.Entry.node).filter fun node => node.declarations ≠ []).map
        fun node => node.children.texts.length).sum ∧
    ∀ (i : Nat) (e : Tree.Entry), t.walk[i]? = some e →
      ∃ before inner after, ofTree t = before ++
          (.content e.depth (header e.depth e.text ++ [' ', '{']) ::
            (e.node.declarations.map (fun d => .content (e.depth + 1) d.written) ++ inner ++
              [.content e.depth ['}']])) ++ after ∧
        before.countP Line.opens = i ∧ ∀ l ∈ inner, l.IsBelow e.depth := by
  refine ⟨fun unit size => print_eq_joined ⟨unit, some size⟩ t, fun unit => ?_, ?_,
    fun i e he => ?_⟩
  · rw [print_eq_joined]
    by_cases h : unit = ['\t'] <;> simp [Indent.resolvedSize, Indent.defaultSize, h]
  · have hlines := length_lines 0 (!t.declarations.isEmpty) t.children
    have hspaces := separators_cons t (t.walk.map Tree.Entry.node)
    rw [← Forest.length_walk t.children 0, ← Forest.sum_walk t.children 0] at hlines
    simp only [ofTree, Tree.walk, separators] at hlines hspaces ⊢
    omega
  · obtain ⟨before, after, hlines, hcount⟩ := exists_block _ he
    exact ⟨before, _, after, hlines, hcount, isBelow_lines (Nat.lt_succ_self _)⟩

/-- A size below zero, for which a long unit is not written at all, and a block inside a block. -/
theorem print_layout_without_indentation :
    let x : Declaration := ⟨['x'], ['1']⟩
    let t : Tree := ⟨[x], .cons ['a'] [x] (.cons ['.', 'b'] [] .nil .nil) .nil⟩
    print ⟨"-+".toList, some (-1)⟩ t = "\na \x7b\nx: 1;\n\n&.b \x7b\n\x7d\n\x7d\n".toList ∧
      (ofTree t).length = 7 ∧
      ∃ before inner after, ofTree t = before ++ (.content 1 "&.b \x7b".toList ::
        (inner ++ [.content 1 ['\x7d']])) ++ after ∧ before.countP Line.opens = 1 := by
  intro x t
  obtain ⟨hprint, -, hlength, hblocks⟩ := print_layout t
  obtain ⟨before, inner, after, hlines, hcount, -⟩ := hblocks 1 _ rfl
  exact ⟨hprint "-+".toList (-1), hlength, before, inner, after, hlines, hcount⟩

end Scss
end StyleNest
