import StyleNest.Diagnostic
import StyleNest.Rule

/-!
Cutting a selector chain into its components, in one pass over the characters.

A phase says what the characters since the last component ask of the next one. Whatever is
gathered is kept latest first.
-/

namespace StyleNest

open Text

namespace Selector

def isNameChar (c : Char) : Bool := c.isAlphanum || c == '-' || c == '_'

def isCombinator (c : Char) : Bool := c == '+' || c == '~' || c == '>'

def isMarker (c : Char) : Bool := c == '#' || c == '.' || c == ':'

/-- What ends a name by beginning the next component. -/
def isDelimiter (c : Char) : Bool := isBlank c || isMarker c || isCombinator c || c == '['

def isMark (c : Char) : Bool := c == singleMark || c == doubleMark

inductive Phase where
  /-- Blanks and combinators only. -/
  | lead (text : Text)
  /-- A marker that wants the first character of its name. -/
  | marker (kind : Kind) (text : Text)
  /-- One colon, which a second one may follow. -/
  | colon (text : Text)
  /-- A component that may end here, with its last character. -/
  | name (kind : Kind) (last : Char) (text : Text)
  | arguments (text : Text)
  /-- Inside brackets; `filled` once something stands in them. -/
  | attribute (filled : Bool) (text : Text)
  | quoted (mark : Char) (text : Text)
  deriving DecidableEq, Repr

structure State where
  done : Chain
  phase : Phase
  deriving DecidableEq

def State.initial : State := ⟨[], .lead []⟩

/-- The component of a kind whose text, read backwards, is `last :: text`. -/
def close (kind : Kind) (last : Char) (text : Text) : Component :=
  ⟨(last :: text).reverse, kind, by simp⟩

/-- The phase after `c` where a component may begin, `text` standing before it. -/
def begin? (text : Text) (c : Char) : Option Phase :=
  if isBlank c || isCombinator c then some (.lead (c :: text))
  else if c = '#' then some (.marker .id (c :: text))
  else if c = '.' then some (.marker .className (c :: text))
  else if c = ':' then some (.colon (c :: text))
  else if c = '[' then some (.attribute false (c :: text))
  else if isNameChar c || c = '*' then some (.name .tag c text)
  else none

/-- One character, if it may stand here. A delimiter closes a name and is then read anew. -/
def step? (st : State) (c : Char) : Option State :=
  match st.phase with
  | .lead text => (begin? text c).map (⟨st.done, ·⟩)
  | .marker kind text => if isNameChar c then some ⟨st.done, .name kind c text⟩ else none
  | .colon text =>
    if c = ':' then some ⟨st.done, .marker .pseudoClass (c :: text)⟩
    else if isNameChar c then some ⟨st.done, .name .pseudoClass c text⟩
    else none
  | .name kind last text =>
    if isNameChar c then some ⟨st.done, .name kind c (last :: text)⟩
    else if c = '(' ∧ kind = .pseudoClass then some ⟨st.done, .arguments (c :: last :: text)⟩
    else if isDelimiter c then (begin? [] c).map (⟨close kind last text :: st.done, ·⟩)
    else none
  | .arguments text =>
    if c = ')' then some ⟨st.done, .name .pseudoClass c text⟩
    else some ⟨st.done, .arguments (c :: text)⟩
  | .attribute filled text =>
    if isMark c then some ⟨st.done, .quoted c (c :: text)⟩
    else if c = '[' then none
    else if c = ']' then
      if filled then some ⟨close .attribute c text :: st.done, .lead []⟩ else none
    else some ⟨st.done, .attribute true (c :: text)⟩
  | .quoted mark text =>
    if c = mark then some ⟨st.done, .attribute true (c :: text)⟩
    else some ⟨st.done, .quoted mark (c :: text)⟩

def step (st : State) (c : Char) : Except Char State :=
  match step? st c with
  | some st' => .ok st'
  | none => .error c

/-- The state after a text, or the first character that may not stand where it does. -/
def run (st : State) (s : Text) : Except Char State := s.foldlM step st

@[simp] theorem run_nil (st : State) : run st [] = .ok st := rfl

theorem run_cons (st : State) (c : Char) (s : Text) :
    run st (c :: s) = (step st c).bind (run · s) := rfl

theorem run_append (st : State) (s t : Text) :
    run st (s ++ t) = (run st s).bind (run · t) := by
  simp only [run, List.foldlM_append]
  rfl

/-- The chain, if it may end here. Blanks at the end are dropped. -/
def finish? (st : State) : Option Chain :=
  match st.phase with
  | .lead text => if text.all isBlank then some st.done.reverse else none
  | .name kind last text => some (close kind last text :: st.done).reverse
  | _ => none

end Selector

/-- A chain that could not be read: the character that has no place in it, or its end. -/
structure ChainError where
  found : Option Char
  source : Text
  deriving DecidableEq, Repr

def ChainError.diagnostic (e : ChainError) : Diagnostic :=
  ⟨e.found.toList, none, none, some e.source⟩

namespace Selector

def parse (s : Text) : Except ChainError Chain :=
  match run .initial s with
  | .error c => .error ⟨some c, s⟩
  | .ok st =>
    match finish? st with
    | some chain => .ok chain
    | none => .error ⟨none, s⟩

end Selector
end StyleNest
