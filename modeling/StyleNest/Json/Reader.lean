import StyleNest.Json.Value

/-!
Reading JSON back, by its own grammar and for any layout: blanks may stand between all marks, and
every escape of a string is understood. A text with a number or a bare word in it is no value here.

Whatever is gathered is kept latest first.
-/

namespace StyleNest.Json

open Text

/-- The letters that stand for one character behind a backslash. -/
def letterValue? (letter : Char) : Option Char :=
  if letter = '/' then some letter
  else (shortEscapes.find? (·.2 = letter)).map Prod.fst

/-- The units and characters that the inside of a string spells. -/
def codes? : Text → Option (List Nat)
  | [] => some []
  | '\x5c' :: 'u' :: a :: b :: c :: d :: s => do
    let n ← hexValue? [a, b, c, d]
    (n :: ·) <$> codes? s
  | '\x5c' :: c :: s => do
    let d ← letterValue? c
    (d.toNat :: ·) <$> codes? s
  | c :: s => if c = backslash ∨ c.toNat < 0x20 then none else (c.toNat :: ·) <$> codes? s

def char? (n : Nat) : Option Char := if n.isValidChar then some (Char.ofNat n) else none

/-- Two units of a pair make one character. -/
def joinUnits? : List Nat → Option Text
  | [] => some []
  | [n] => do return [← char? n]
  | hi :: lo :: ns =>
    if 0xD800 ≤ hi ∧ hi < 0xDC00 ∧ 0xDC00 ≤ lo ∧ lo < 0xE000 then do
      let c ← char? (0x10000 + (hi - 0xD800) * 0x400 + (lo - 0xDC00))
      (c :: ·) <$> joinUnits? ns
    else do
      let c ← char? hi
      (c :: ·) <$> joinUnits? (lo :: ns)

def unescape? (s : Text) : Option Text := (codes? s).bind joinUnits?

namespace Reader

/-- A container that is still open around what is being read. -/
inductive Frame where
  | items (done : List Json)
  | fields (done : List (Text × Json)) (key : Text)

inductive Phase where
  /-- A value is due. The first one of an array may be missing. -/
  | value (first : Bool)
  /-- A key is due. The first one of an object may be missing. -/
  | key (first : Bool) (done : List (Text × Json))
  | colon (done : List (Text × Json)) (key : Text)
  /-- Inside a string, which is a key if it belongs to fields; `escape` behind a backslash. -/
  | string (fields : Option (List (Text × Json))) (escape : Bool) (raw : Text)
  | after (value : Json)

/-- The innermost open container comes first. -/
structure State where
  frames : List Frame
  phase : Phase

def State.initial : State := ⟨[], .value false⟩

def isSpace (c : Char) : Bool := c == ' ' || c == '\t' || c == '\r' || c == '\n'

/-- The end of a string. -/
def endString? (frames : List Frame) (fields : Option (List (Text × Json))) (raw : Text) :
    Option State := do
  let s ← unescape? raw.reverse
  match fields with
  | none => some ⟨frames, .after (.str s)⟩
  | some done => some ⟨frames, .colon done s⟩

def step? (st : State) (c : Char) : Option State :=
  match st.phase, st.frames with
  | .string fields true raw, frames => some ⟨frames, .string fields false (c :: raw)⟩
  | .string fields false raw, frames =>
    if c = doubleMark then endString? frames fields raw
    else some ⟨frames, .string fields (c == backslash) (c :: raw)⟩
  | .value first, frames =>
    if isSpace c then some st
    else if c = doubleMark then some ⟨frames, .string none false []⟩
    else if c = '[' then some ⟨.items [] :: frames, .value true⟩
    else if c = '{' then some ⟨frames, .key true []⟩
    else
      match first, frames with
      | true, .items done :: frames =>
        if c = ']' then some ⟨frames, .after (.arr done.reverse)⟩ else none
      | _, _ => none
  | .key first done, frames =>
    if isSpace c then some st
    else if c = doubleMark then some ⟨frames, .string (some done) false []⟩
    else if first ∧ c = '}' then some ⟨frames, .after (.obj done.reverse)⟩
    else none
  | .colon done key, frames =>
    if isSpace c then some st
    else if c = ':' then some ⟨.fields done key :: frames, .value false⟩
    else none
  | .after _, [] => if isSpace c then some st else none
  | .after v, .items done :: frames =>
    if isSpace c then some st
    else if c = ',' then some ⟨.items (v :: done) :: frames, .value false⟩
    else if c = ']' then some ⟨frames, .after (.arr (v :: done).reverse)⟩
    else none
  | .after v, .fields done key :: frames =>
    if isSpace c then some st
    else if c = ',' then some ⟨frames, .key false ((key, v) :: done)⟩
    else if c = '}' then some ⟨frames, .after (.obj ((key, v) :: done).reverse)⟩
    else none

def run? (st : State) (s : Text) : Option State := s.foldlM step? st

@[simp] theorem run?_nil (st : State) : run? st [] = some st := rfl

theorem run?_cons (st : State) (c : Char) (s : Text) :
    run? st (c :: s) = (step? st c).bind (run? · s) := rfl

theorem run?_append (st : State) (s t : Text) :
    run? st (s ++ t) = (run? st s).bind (run? · t) := by
  simp only [run?, List.foldlM_append]
  rfl

end Reader

/-- The value that a text spells, if it spells one. -/
def read? (s : Text) : Option Json :=
  match Reader.run? .initial s with
  | some ⟨[], .after v⟩ => some v
  | _ => none

end StyleNest.Json
