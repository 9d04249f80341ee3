import StyleNest.Selector.Scan
import StyleNest.Text.Line

/-!
Reading a flat sheet into its rules, in one pass over the characters.

A phase holds all that is known of the unfinished rule and nothing of the finished ones, so the
text of a rule is read the same way wherever it stands. Whatever is gathered is kept latest first.
-/

namespace StyleNest.Sheet

open Text Selector

/-- The blanks of a sheet. -/
def isSpace (c : Char) : Bool := c == ' ' || c == '\t' || c == '\r' || c == '\n'

def isSelectorChar (c : Char) : Bool :=
  c.isAlphanum || isSpace c ||
    (c == '.' || c == '-' || c == '+' || c == '>' || c == '*' || c == '#' || c == ':' || c == '=' ||
      c == '(' || c == ')' || c == '[' || c == ']' || c == doubleMark || c == singleMark ||
      c == '~' || c == '_' || c == '^' || c == '$' || c == '|')

def isPropertyChar (c : Char) : Bool := c.isAlphanum || c == '-'

/-- What is known of a rule inside its block, latest first. -/
structure Draft where
  selectors : List Chain
  declarations : List Declaration
  deriving DecidableEq

namespace Draft

/-- Takes a declaration whose name and value are read backwards. -/
def declare (d : Draft) (name value : Text) : Draft :=
  { d with declarations := ⟨name.reverse, value.reverse⟩ :: d.declarations }

def rule (d : Draft) : Rule := ⟨d.selectors.reverse, d.declarations.reverse⟩

end Draft

inductive Phase where
  /-- Between two rules. -/
  | outside
  | selector (done : List Chain) (text : Text)
  /-- Behind a comma, where a chain must follow. -/
  | comma (done : List Chain)
  | block (draft : Draft)
  | inName (draft : Draft) (name : Text)
  /-- Between a name and its colon. -/
  | afterName (draft : Draft) (name : Text)
  /-- Between a colon and the value. -/
  | afterColon (draft : Draft) (name : Text)
  | inValue (draft : Draft) (name value : Text)
  deriving DecidableEq

/-- What one character does to an unfinished rule. -/
inductive Move where
  | enter (phase : Phase)
  | close (rule : Rule)
  | refuse
  | refuseChain (e : ChainError)

/-- A chain ends: its text, read backwards, is cut into components. -/
def endChain (done : List Chain) (text : Text) (next : List Chain → Phase) : Move :=
  match Selector.parse (trim text.reverse) with
  | .ok chain => .enter (next (chain :: done))
  | .error e => .refuseChain e

def Phase.move (phase : Phase) (c : Char) : Move :=
  match phase with
  | .outside =>
    if isSpace c then .enter .outside
    else if isSelectorChar c then .enter (.selector [] [c])
    else if c = '{' then .enter (.block ⟨[], []⟩)
    else .refuse
  | .selector done text =>
    if isSelectorChar c then .enter (.selector done (c :: text))
    else if c = ',' then endChain done text .comma
    else if c = '{' then endChain done text fun chains => .block ⟨chains, []⟩
    else .refuse
  | .comma done =>
    if isSpace c then .enter (.comma done)
    else if isSelectorChar c then .enter (.selector done [c])
    else .refuse
  | .block draft =>
    if isSpace c then .enter (.block draft)
    else if isPropertyChar c then .enter (.inName draft [c])
    else if c = '}' then .close draft.rule
    else .refuse
  | .inName draft name =>
    if isPropertyChar c then .enter (.inName draft (c :: name))
    else if isSpace c then .enter (.afterName draft name)
    else if c = ':' then .enter (.afterColon draft name)
    else .refuse
  | .afterName draft name =>
    if isSpace c then .enter (.afterName draft name)
    else if c = ':' then .enter (.afterColon draft name)
    else .refuse
  | .afterColon draft name =>
    if isSpace c then .enter (.afterColon draft name)
    else if c = '}' then .close (draft.declare name []).rule
    else if c = ';' then .enter (.block (draft.declare name []))
    else .enter (.inValue draft name [c])
  | .inValue draft name value =>
    if c = '}' then .close (draft.declare name value).rule
    else if c = ';' then .enter (.block (draft.declare name value))
    else .enter (.inValue draft name (c :: value))

inductive Error where
  /-- A character, or the end of the sheet, where it may not stand. -/
  | unexpected (found : Option Char) (place : Position)
  | chain (e : ChainError)
  deriving DecidableEq, Repr

def Error.diagnostic : Error → Diagnostic
  | .unexpected found place => ⟨found.toList, some place.line, some place.column, none⟩
  | .chain e => e.diagnostic

structure State where
  rules : List Rule
  phase : Phase
  place : Position
  deriving DecidableEq

def State.initial : State := ⟨[], .outside, .start⟩

def step (st : State) (c : Char) : Except Error State :=
  match st.phase.move c with
  | .enter phase => .ok ⟨st.rules, phase, st.place.next c⟩
  | .close rule => .ok ⟨rule :: st.rules, .outside, st.place.next c⟩
  | .refuse => .error (.unexpected (some c) st.place)
  | .refuseChain e => .error (.chain e)

def run (st : State) (s : Text) : Except Error State := s.foldlM step st

@[simp] theorem run_nil (st : State) : run st [] = .ok st := rfl

theorem run_cons (st : State) (c : Char) (s : Text) :
    run st (c :: s) = (step st c).bind (run · s) := rfl

theorem run_append (st : State) (s t : Text) :
    run st (s ++ t) = (run st s).bind (run · t) := by
  simp only [run, List.foldlM_append]
  rfl

theorem place_of_step {st st' : State} {c : Char} (h : step st c = .ok st') :
    st'.place = st.place.next c := by
  unfold step at h
  split at h <;> simp_all <;> subst h <;> rfl

theorem place_of_run {st st' : State} {s : Text} (h : run st s = .ok st') :
    st'.place = st.place.after s := by
  induction s generalizing st with
  | nil => cases h; rfl
  | cons c s ih =>
    rw [run_cons] at h
    cases hs : step st c with
    | error e => rw [hs] at h; cases h
    | ok m =>
      rw [hs] at h
      rw [ih h, place_of_step hs, Position.after_cons]

/-- The rules, if the sheet may end here. -/
def finish (st : State) : Except Error (List Rule) :=
  match st.phase with
  | .outside => .ok st.rules.reverse
  | _ => .error (.unexpected none st.place)

def parse (s : Text) : Except Error (List Rule) := (run .initial s).bind finish

end StyleNest.Sheet
