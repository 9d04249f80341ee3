import StyleNest.Text.Quoted

/-!
The rules of a flat sheet, and the selector chains that they hang on. Each part of a chain keeps the
blanks and combinators written before it, so a chain's text is the text of its parts one after the
other. The chains of a rule share its declarations.
-/

namespace StyleNest

namespace Selector

open Text

/-- What a component selects by. -/
inductive Kind where
  | tag
  | id
  | className
  | pseudoClass
  | attribute
  deriving DecidableEq, Repr

namespace Kind

def all : List Kind := [.tag, .id, .className, .pseudoClass, .attribute]

def code : Kind → Text
  | .tag => "tag".toList
  | .id => "id".toList
  | .className => "class".toList
  | .pseudoClass => "pclass".toList
  | .attribute => "attribute".toList

def ofCode? (s : Text) : Option Kind := all.find? (·.code = s)

theorem ofCode?_code (k : Kind) : ofCode? k.code = some k := by
  cases k <;> decide

end Kind

structure Component where
  text : Text
  kind : Kind
  text_ne_nil : text ≠ []
  deriving DecidableEq

/-- A compound of components in the order they were written. -/
abbrev Chain := List Component

inductive ComponentError where
  | unknownKind (code : Text)
  | emptyText
  deriving DecidableEq, Repr

def ComponentError.message : ComponentError → Text
  | .unknownKind code => quoted code ++ " is not a valid ComponentKind".toList
  | .emptyText => "Component text must be a non-empty string".toList

/-- A component from the code of its kind and its text. The kind is looked at first. -/
def Component.ofParts (code text : Text) : Except ComponentError Component :=
  match Kind.ofCode? code with
  | none => .error (.unknownKind code)
  | some kind =>
    if h : text = [] then .error .emptyText else .ok ⟨text, kind, h⟩

/-- The text of a chain. -/
def Chain.text (cs : Chain) : Text := cs.flatMap Component.text

end Selector

namespace Sheet

open Selector

structure Declaration where
  name : Text
  value : Text
  deriving DecidableEq, Repr

/-- The declaration as a sheet spells it. -/
def Declaration.written (d : Declaration) : Text :=
  d.name ++ ": ".toList ++ d.value ++ ";".toList

structure Rule where
  selectors : List Chain
  declarations : List Declaration
  deriving DecidableEq

/-- Each chain gets a copy of each declaration. -/
def Rule.fanOut (r : Rule) : Nat := r.selectors.length * r.declarations.length

end Sheet
end StyleNest
