import StyleNest.Text.Quoted

/-!
JSON values of the kinds that rules are made of, and their text: one item a line, each level
indented by four spaces, all in ASCII. A character beyond the first plane is written as two units.
-/

namespace StyleNest

open Text

inductive Json where
  | str (s : Text)
  | arr (items : List Json)
  | obj (fields : List (Text × Json))

namespace Json

/-- The units of 16 bits that stand for a character. -/
def units (c : Char) : List Nat :=
  let n := c.toNat
  if n < 0x10000 then [n]
  else [0xD800 + (n - 0x10000) / 0x400, 0xDC00 + (n - 0x10000) % 0x400]

/-- The escapes of a single letter. -/
def shortEscapes : List (Char × Char) :=
  [(doubleMark, doubleMark), (backslash, backslash), ('\n', 'n'), ('\r', 'r'), ('\t', 't'),
    ('\x08', 'b'), ('\x0c', 'f')]

def escaped (c : Char) : Text :=
  match shortEscapes.lookup c with
  | some letter => [backslash, letter]
  | none =>
    if 0x20 ≤ c.toNat ∧ c.toNat ≤ 0x7E then [c]
    else (units c).flatMap fun u => backslash :: 'u' :: hex 4 u

def string (s : Text) : Text := doubleMark :: s.flatMap escaped ++ [doubleMark]

def lineAt (depth : Nat) : Text := '\n' :: times depth "    ".toList

/-- Parts between brackets, each on a line of its own. -/
def enclose (left right : Char) (depth : Nat) : List Text → Text
  | [] => [left, right]
  | part :: parts =>
    left :: lineAt (depth + 1) ++ part ++
      parts.flatMap (fun p => ',' :: lineAt (depth + 1) ++ p) ++ lineAt depth ++ [right]

mutual

/-- The text of a value whose first line stands at `depth`. -/
def write (depth : Nat) : Json → Text
  | .str s => string s
  | .arr items => enclose '[' ']' depth (writeItems (depth + 1) items)
  | .obj fields => enclose '{' '}' depth (writeFields (depth + 1) fields)

def writeItems (depth : Nat) : List Json → List Text
  | [] => []
  | item :: items => item.write depth :: writeItems depth items

def writeFields (depth : Nat) : List (Text × Json) → List Text
  | [] => []
  | (key, value) :: fields =>
    (string key ++ ": ".toList ++ value.write depth) :: writeFields depth fields

end

end Json
end StyleNest
