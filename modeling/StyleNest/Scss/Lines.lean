import StyleNest.Text.Line
import StyleNest.Tree

/-!
A tree as nested blocks. The lines are fixed by the tree; indentation, a unit that is written a
number of times for each level, is added when they are written. A block is set off by an empty line
from the declarations that stand before it.
-/

namespace StyleNest.Scss

open Text Sheet

/-! ### Indentation -/

/-- No size stands for the unit's own one, and a size below zero for none at all. -/
structure Indent where
  unit : Text
  size : Option Int
  deriving DecidableEq, Repr

namespace Indent

/-- One tab a level, and four of anything else. -/
def defaultSize (unit : Text) : Nat := if unit = ['\t'] then 1 else 4

def resolvedSize (i : Indent) : Int := i.size.getD (defaultSize i.unit)

/-- The text before a line of the first level, however long: no size is too large here. -/
def level (i : Indent) : Text := times i.resolvedSize.toNat i.unit

def spaces : Indent := ⟨[' '], none⟩

end Indent

/-! ### Lines -/

inductive Line where
  | empty
  | content (depth : Nat) (text : Text)
  deriving DecidableEq, Repr

/-- The selector of a block. Inside another block, a text that begins with no blank goes on with
the block's own selector, which is written `&`. -/
def header (depth : Nat) (text : Text) : Text :=
  if 0 < depth ∧ trimLeft text = text then '&' :: text else trimLeft text

def lines (depth : Nat) (spaced : Bool) : Forest → List Line
  | .nil => []
  | .cons text declarations below next =>
    (if spaced then [.empty] else []) ++
      .content depth (header depth text ++ [' ', '{']) ::
      declarations.map (fun d => .content (depth + 1) d.written) ++
      lines (depth + 1) (!declarations.isEmpty) below ++
      .content depth ['}'] :: lines depth spaced next

def ofTree (t : Tree) : List Line := lines 0 (!t.declarations.isEmpty) t.children

/-- A line behind its indentation, `level` being the text of one level. -/
def Line.render (level : Text) : Line → Text
  | .empty => []
  | .content depth text => times depth level ++ text

/-- The nodes below the root as text, nothing at all if there are none. -/
def print (i : Indent) (t : Tree) : Text := unlines ((ofTree t).map (Line.render i.level))

end StyleNest.Scss
