import StyleNest.Scss.Lines
import StyleNest.Sheet.Scan

/-!
Reading nested blocks back. Each block is given with its selector written out in full, in the
order in which the blocks open.

In a block, a name that a colon follows at once begins a declaration; anything else, and
everything outside of blocks, is the header of a block.
-/

namespace StyleNest.Scss

open Text Sheet

structure Block where
  selector : Text
  declarations : List Declaration
  deriving DecidableEq, Repr

/-- The full selector of a block from that of the block around it and from its header. -/
def resolve (around : Option Text) (header : Text) : Text :=
  match around, header with
  | none, _ => header
  | some s, '&' :: rest => s ++ rest
  | some s, _ => s ++ ' ' :: header

namespace Reader

/-- An open block, with the blocks in it that are closed already. -/
structure Frame where
  block : Block
  inner : List Block
  deriving DecidableEq, Repr

/-- Whatever is gathered is kept latest first. -/
inductive Phase where
  | items
  /-- Name characters, which may turn out to begin a header. -/
  | word (text : Text)
  /-- Behind the colon of a declaration. -/
  | colon (name : Text)
  | value (name text : Text)
  | header (text : Text)
  deriving DecidableEq, Repr

/-- The innermost open block comes first. -/
structure State where
  done : List Block
  frames : List Frame
  phase : Phase
  deriving DecidableEq, Repr

def State.initial : State := ⟨[], [], .items⟩

/-- The header without the one space before the brace. -/
def headerText : Text → Text
  | ' ' :: text => text.reverse
  | text => text.reverse

def openBlock (st : State) (text : Text) : State :=
  let around := st.frames.head?.map fun f => f.block.selector
  { st with
    frames := ⟨⟨resolve around (headerText text), []⟩, []⟩ :: st.frames
    phase := .items }

def closeBlock? (st : State) : Option State :=
  match st.frames with
  | [] => none
  | f :: [] => some ⟨st.done ++ f.block :: f.inner, [], .items⟩
  | f :: g :: frames =>
    some ⟨st.done, { g with inner := g.inner ++ f.block :: f.inner } :: frames, .items⟩

def declare? (st : State) (d : Declaration) : Option State :=
  match st.frames with
  | [] => none
  | f :: frames =>
    let block := { f.block with declarations := f.block.declarations ++ [d] }
    some { st with frames := { f with block } :: frames, phase := .items }

/-- A character of a header, or the brace that ends it. -/
def headerStep (st : State) (text : Text) (c : Char) : State :=
  if c = '{' then openBlock st text else { st with phase := .header (c :: text) }

def step? (st : State) (c : Char) : Option State :=
  match st.phase with
  | .items =>
    if isSpace c then some st
    else if c = '}' then closeBlock? st
    else if isPropertyChar c ∧ st.frames ≠ [] then some { st with phase := .word [c] }
    else some (headerStep st [] c)
  | .word text =>
    if isPropertyChar c then some { st with phase := .word (c :: text) }
    else if c = ':' then some { st with phase := .colon text.reverse }
    else some (headerStep st text c)
  | .colon name => if c = ' ' then some { st with phase := .value name [] } else none
  | .value name text =>
    if c = ';' then declare? st ⟨name, text.reverse⟩
    else some { st with phase := .value name (c :: text) }
  | .header text => some (headerStep st text c)

def run? (st : State) (s : Text) : Option State := s.foldlM step? st

@[simp] theorem run?_nil (st : State) : run? st [] = some st := rfl

theorem run?_cons (st : State) (c : Char) (s : Text) :
    run? st (c :: s) = (step? st c).bind (run? · s) := rfl

theorem run?_append (st : State) (s t : Text) :
    run? st (s ++ t) = (run? st s).bind (run? · t) := by
  simp only [run?, List.foldlM_append]
  rfl

end Reader

/-- The blocks of a text, if every one of them is closed. -/
def read? (s : Text) : Option (List Block) :=
  match Reader.run? .initial s with
  | some ⟨blocks, [], .items⟩ => some blocks
  | _ => none

/-- The selector of a node from that of the node above it and from its own text. -/
def selectorBelow (above : Option Text) (text : Text) : Text :=
  match above with
  | none => trimLeft text
  | some s => if trimLeft text = text then s ++ text else s ++ ' ' :: trimLeft text

/-- The blocks that stand for the nodes of a forest, in the order of a walk. -/
def blocks (above : Option Text) : Forest → List Block
  | .nil => []
  | .cons text declarations below next =>
    let selector := selectorBelow above text
    ⟨selector, declarations⟩ :: blocks (some selector) below ++ blocks above next

end StyleNest.Scss
