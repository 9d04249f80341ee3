import StyleNest.Json.Value
import StyleNest.Rule

/-!
Rules as JSON values, and back from them. Fields must come in the order in which they are written.
-/

namespace StyleNest

open Selector Sheet

def Selector.Component.toJson (c : Component) : Json :=
  .obj [("text".toList, .str c.text), ("kind".toList, .str c.kind.code)]

def Selector.Chain.toJson (chain : Chain) : Json := .arr (chain.map Component.toJson)

def Sheet.Declaration.toJson (d : Declaration) : Json :=
  .obj [("name".toList, .str d.name), ("value".toList, .str d.value)]

def Sheet.Rule.toJson (r : Rule) : Json :=
  .obj [("selectors".toList, .arr (r.selectors.map Chain.toJson)),
    ("properties".toList, .arr (r.declarations.map Declaration.toJson))]

def Json.ofRules (rules : List Rule) : Json := .arr (rules.map Rule.toJson)

namespace Json

def asText? : Json → Option Text
  | .str s => some s
  | _ => none

def asList? : Json → Option (List Json)
  | .arr items => some items
  | _ => none

/-- The values of an object with exactly the two given keys. -/
def asPair? (first second : Text) : Json → Option (Json × Json)
  | .obj [(k, v), (k', v')] => if k = first ∧ k' = second then some (v, v') else none
  | _ => none

def asComponent? (j : Json) : Option Component := do
  let (text, kind) ← j.asPair? "text".toList "kind".toList
  (Component.ofParts (← kind.asText?) (← text.asText?)).toOption

def asChain? (j : Json) : Option Chain := do (← j.asList?).mapM asComponent?

def asDeclaration? (j : Json) : Option Declaration := do
  let (name, value) ← j.asPair? "name".toList "value".toList
  some ⟨← name.asText?, ← value.asText?⟩

def asRule? (j : Json) : Option Rule := do
  let (selectors, declarations) ← j.asPair? "selectors".toList "properties".toList
  some ⟨← (← selectors.asList?).mapM asChain?, ← (← declarations.asList?).mapM asDeclaration?⟩

def asRules? (j : Json) : Option (List Rule) := do (← j.asList?).mapM asRule?

end Json
end StyleNest
