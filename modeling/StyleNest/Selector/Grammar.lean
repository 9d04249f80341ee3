import Mathlib.Data.List.Chain
import StyleNest.Selector.Scan

/-!
Which texts are chains, said without the scan: how a component of each kind is spelled, what may
stand before it, and which components may stand side by side.
-/

namespace StyleNest.Selector

open Text

/-- What may stand before a component. -/
def IsLead (p : Text) : Prop := ∀ c ∈ p, isBlank c = true ∨ isCombinator c = true

def IsName (s : Text) : Prop := s ≠ [] ∧ ∀ c ∈ s, isNameChar c = true

/-- What may follow the name of a pseudo class: name characters and groups in parentheses. -/
inductive IsTail : Text → Prop where
  | nil : IsTail []
  | char {c : Char} {s : Text} : isNameChar c = true → IsTail s → IsTail (c :: s)
  | group {u s : Text} : ')' ∉ u → IsTail s → IsTail ('(' :: u ++ ')' :: s)

/-- What may stand in brackets: characters other than marks and brackets, and marked texts. -/
inductive IsContent : Text → Prop where
  | nil : IsContent []
  | char {c : Char} {s : Text} :
      isMark c = false → c ≠ '[' → c ≠ ']' → IsContent s → IsContent (c :: s)
  | quoted {m : Char} {u s : Text} :
      isMark m = true → m ∉ u → IsContent s → IsContent (m :: u ++ m :: s)

/-- How the component of a kind is spelled, apart from what stands before it. -/
inductive Kind.Spells : Kind → Text → Prop where
  | tag {c : Char} {s : Text} :
      isNameChar c = true ∨ c = '*' → (∀ x ∈ s, isNameChar x = true) → Spells .tag (c :: s)
  | id {s : Text} : IsName s → Spells .id ('#' :: s)
  | className {s : Text} : IsName s → Spells .className ('.' :: s)
  | pseudoClass {s t : Text} : IsName s → IsTail t → Spells .pseudoClass (':' :: s ++ t)
  | pseudoElement {s t : Text} :
      IsName s → IsTail t → Spells .pseudoClass (':' :: ':' :: s ++ t)
  | attribute {s : Text} : s ≠ [] → IsContent s → Spells .attribute ('[' :: s ++ [']'])

def Component.Spelled (c : Component) : Prop :=
  ∃ p q, c.text = p ++ q ∧ IsLead p ∧ c.kind.Spells q

/-- A name ends only where a delimiter follows; a bracket ends by itself. -/
def Component.Joins (a b : Component) : Prop :=
  a.kind = .attribute ∨ ∃ c ∈ b.text.head?, isDelimiter c = true

/-- Components that make a chain when written one after the other. -/
def Chain.Spelled (cs : Chain) : Prop :=
  (∀ c ∈ cs, c.Spelled) ∧ cs.IsChain Component.Joins

/-- A text that reads as a chain: its components, then blanks. -/
def Chain.Reads (s : Text) (cs : Chain) : Prop :=
  cs.Spelled ∧ ∃ w, (∀ c ∈ w, isBlank c = true) ∧ s = cs.text ++ w

end StyleNest.Selector
