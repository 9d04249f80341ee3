import StyleNest.Sheet.Scan

/-!
Which texts are flat sheets, and of which rules, said without the scan.
-/

namespace StyleNest.Sheet

open Text Selector

def IsSpaces (w : Text) : Prop := ∀ c ∈ w, isSpace c = true

/-- The text of one chain in a list of them. -/
def IsChainText (t : Text) : Prop :=
  (∀ c ∈ t, isSelectorChar c = true) ∧ ∃ c ∈ t.head?, isSpace c = false

/-- Chains with commas between them. -/
inductive ListReads : Text → List Chain → Prop where
  | one {t : Text} {c : Chain} :
      IsChainText t → Selector.parse (trim t) = .ok c → ListReads t [c]
  | cons {t w s : Text} {c : Chain} {cs : List Chain} :
      IsChainText t → Selector.parse (trim t) = .ok c → IsSpaces w → ListReads s cs →
      ListReads (t ++ ',' :: w ++ s) (c :: cs)

/-- What may be read as a value. -/
def IsValue (v : Text) : Prop :=
  (∀ c ∈ v.head?, isSpace c = false) ∧ ';' ∉ v ∧ '}' ∉ v

def IsPropertyName (s : Text) : Prop := s ≠ [] ∧ ∀ c ∈ s, isPropertyChar c = true

inductive Declaration.Reads : Text → Declaration → Prop where
  | mk {name u w value : Text} :
      IsPropertyName name → IsSpaces u → IsSpaces w → IsValue value →
      Reads (name ++ u ++ ':' :: w ++ value) ⟨name, value⟩

/-- Declarations, each but the last one ended by a semicolon. -/
inductive BodyReads : Text → List Declaration → Prop where
  | nil : BodyReads [] []
  | last {t : Text} {d : Declaration} : d.Reads t → BodyReads t [d]
  | cons {t w s : Text} {d : Declaration} {ds : List Declaration} :
      d.Reads t → IsSpaces w → BodyReads s ds → BodyReads (t ++ ';' :: w ++ s) (d :: ds)

/-- A block with its selectors, which may be missing altogether. -/
inductive Rule.Reads : Text → Rule → Prop where
  | bare {w s : Text} {ds : List Declaration} :
      IsSpaces w → BodyReads s ds → Reads ('{' :: w ++ s ++ ['}']) ⟨[], ds⟩
  | selecting {t w s : Text} {cs : List Chain} {ds : List Declaration} :
      ListReads t cs → IsSpaces w → BodyReads s ds → Reads (t ++ '{' :: w ++ s ++ ['}']) ⟨cs, ds⟩

/-- Rules with blanks around them. -/
inductive Reads : Text → List Rule → Prop where
  | nil {w : Text} : IsSpaces w → Reads w []
  | cons {w t s : Text} {r : Rule} {rs : List Rule} :
      IsSpaces w → r.Reads t → Reads s rs → Reads (w ++ t ++ s) (r :: rs)

end StyleNest.Sheet
