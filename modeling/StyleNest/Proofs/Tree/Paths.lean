import Mathlib.Data.List.Basic
import StyleNest.Tree

/-!
Looking up the paths of a tree that is made from rules.

Adding below a path touches the nodes on the way and no others. A tree of rules is made by adding
once for each chain, so a node is there exactly when a chain goes through it, and it declares what
was added at the end of its own path.
-/

namespace StyleNest

open Selector Sheet

/-! ### Children -/

/-- The child at `key` as an update finds it. -/
def Forest.childD (f : Forest) (key : Text) : Tree := (f.get? key).getD .empty

lemma Forest.get?_update (f : Forest) (key key' : Text) (g : Tree → Tree) :
    (f.update key g).get? key' = if key' = key then some (g (f.childD key)) else f.get? key' := by
  induction f with
  | nil =>
    by_cases h : key' = key
    · subst h
      simp [update, get?, childD, Tree.empty]
    · simp [update, get?, h, Ne.symm h]
  | cons text ds below next _ ih =>
    by_cases ht : text = key
    · subst ht
      by_cases h : key' = text
      · subst h
        simp [update, get?, childD]
      · simp [update, get?, h, Ne.symm h]
    · have hc : (cons text ds below next).childD key = next.childD key := by
        simp [childD, get?, ht]
      by_cases h : text = key'
      · subst h
        simp [update, get?, ht]
      · simp [update, get?, ht, h, ih, hc]

/-! ### Adding and looking up -/

namespace Tree

variable {t : Tree} {p q : List Text} {ds : List Declaration}

@[simp] lemma find?_nil : t.find? [] = some t := rfl

lemma find?_cons (text : Text) :
    t.find? (text :: p) = (t.children.get? text).bind (·.find? p) := rfl

lemma find?_empty_cons (text : Text) : empty.find? (text :: p) = none := rfl

/-- The node at a path as adding finds it. -/
def nodeD (t : Tree) (p : List Text) : Tree := (t.find? p).getD empty

lemma nodeD_empty (p : List Text) : empty.nodeD p = empty := by
  cases p <;> rfl

lemma nodeD_cons (text : Text) : t.nodeD (text :: p) = (t.children.childD text).nodeD p := by
  cases h : t.children.get? text with
  | none =>
    have hc : t.children.childD text = empty := by simp [Forest.childD, h]
    rw [hc, nodeD_empty]
    simp [nodeD, find?_cons, h]
  | some c => simp [nodeD, find?_cons, Forest.childD, h]

/-- A node on the way is there afterwards, with the rest of the path added below it. -/
lemma find?_add_append (r : List Text) :
    (t.add (q ++ r) ds).find? q = some ((t.nodeD q).add r ds) := by
  induction q generalizing t with
  | nil => rfl
  | cons text q ih =>
    rw [List.cons_append, find?_cons, nodeD_cons]
    simp only [add, Forest.get?_update, if_true, Option.bind_some]
    exact ih

/-- A node that is not on the way stays as it was. -/
lemma find?_add_of_not_isPrefix (h : ¬ q <+: p) : (t.add p ds).find? q = t.find? q := by
  induction q generalizing t p with
  | nil => exact absurd List.nil_prefix h
  | cons text q ih =>
    cases p with
    | nil => rfl
    | cons text' p =>
      simp only [find?_cons, add, Forest.get?_update]
      by_cases ht : text = text'
      · subst ht
        have hq : ¬ q <+: p := fun hq => h (by simpa using hq)
        rw [if_pos rfl, Option.bind_some, ih hq, Forest.childD]
        cases q with
        | nil => exact absurd List.nil_prefix hq
        | cons a q => cases t.children.get? text <;> rfl
      · rw [if_neg ht]

lemma isSome_find?_add :
    ((t.add p ds).find? q).isSome ↔ (t.find? q).isSome ∨ q <+: p := by
  by_cases h : q <+: p
  · obtain ⟨r, rfl⟩ := h
    simp [find?_add_append]
  · simp [find?_add_of_not_isPrefix h, h]

/-- The declarations at a path, none if there is no node. -/
def declared (t : Tree) (p : List Text) : List Declaration := (t.nodeD p).declarations

lemma declared_add :
    (t.add p ds).declared q = t.declared q ++ if p = q then ds else [] := by
  by_cases h : q <+: p
  · obtain ⟨r, rfl⟩ := h
    have e : (t.add (q ++ r) ds).declared q = ((t.nodeD q).add r ds).declarations := by
      simp [declared, nodeD, find?_add_append]
    rw [e]
    cases r <;> simp [add, declared]
  · have hne : p ≠ q := by
      rintro rfl
      exact h (List.prefix_refl _)
    simp [declared, nodeD, find?_add_of_not_isPrefix h, hne]

end Tree

/-! ### Trees of rules -/

/-- What a tree is made from: for each chain of a rule its path, with the rule's declarations. -/
def Sheet.Rule.placements (r : Rule) : List (List Text × List Declaration) :=
  r.selectors.map fun chain => (chain.path, r.declarations)

namespace Tree

variable {p : List Text}

def addAll (t : Tree) (ps : List (List Text × List Declaration)) : Tree :=
  ps.foldl (fun t x => t.add x.1 x.2) t

lemma ofRules_eq_addAll (rules : List Rule) :
    ofRules rules = empty.addAll (rules.flatMap Rule.placements) := by
  have hr : ∀ (t : Tree) (r : Rule), t.addRule r = t.addAll r.placements := fun t r => by
    rw [addAll, Rule.placements, List.foldl_map]
    rfl
  rw [ofRules, addAll, List.foldl_flatMap]
  congr 1
  funext t r
  exact hr t r

lemma isSome_find?_addAll (t : Tree) (ps : List (List Text × List Declaration)) :
    ((t.addAll ps).find? p).isSome ↔ (t.find? p).isSome ∨ ∃ x ∈ ps, p <+: x.1 := by
  induction ps generalizing t with
  | nil => simp [addAll]
  | cons x ps ih =>
    have e : t.addAll (x :: ps) = (t.add x.1 x.2).addAll ps := rfl
    rw [e, ih, isSome_find?_add, List.exists_mem_cons_iff, or_assoc]

lemma declared_addAll (t : Tree) (ps : List (List Text × List Declaration)) :
    (t.addAll ps).declared p = t.declared p ++ ps.flatMap fun x => if x.1 = p then x.2 else [] := by
  induction ps generalizing t with
  | nil => simp [addAll]
  | cons x ps ih =>
    have e : t.addAll (x :: ps) = (t.add x.1 x.2).addAll ps := rfl
    rw [e, ih, declared_add, List.flatMap_cons, List.append_assoc]

lemma isSome_find?_empty : (empty.find? p).isSome ↔ p = [] := by
  cases p with
  | nil => simp
  | cons text p => simp [find?_empty_cons]

/-- The nodes of a tree of rules are those that a chain goes through. -/
lemma isSome_find?_ofRules (rules : List Rule) (p : List Text) :
    ((ofRules rules).find? p).isSome ↔
      p = [] ∨ ∃ r ∈ rules, ∃ chain ∈ r.selectors, p <+: chain.path := by
  rw [ofRules_eq_addAll, isSome_find?_addAll, isSome_find?_empty]
  simp [Rule.placements, and_assoc]

/-- Each chain declares at the end of its path, in the order of the rules and their chains. -/
lemma declared_ofRules (rules : List Rule) (p : List Text) :
    (ofRules rules).declared p = rules.flatMap fun r => r.selectors.flatMap fun chain =>
      if chain.path = p then r.declarations else [] := by
  have he : empty.declared p = [] := by
    rw [declared, nodeD_empty]
    rfl
  rw [ofRules_eq_addAll, declared_addAll, he, List.nil_append, List.flatMap_assoc]
  simp [Rule.placements, List.flatMap_map]

/-- Chains with components declare nothing at the root. -/
lemma declarations_ofRules {rules : List Rule}
    (hc : ∀ r ∈ rules, ∀ chain ∈ r.selectors, chain ≠ []) :
    (ofRules rules).declarations = [] := by
  have h : (ofRules rules).declared [] = [] := by
    rw [declared_ofRules]
    refine List.flatMap_eq_nil_iff.mpr fun r hr => List.flatMap_eq_nil_iff.mpr fun chain hm => ?_
    rw [if_neg]
    simpa [Chain.path] using hc r hr chain hm
  exact h

lemma declared_of_find? {t node : Tree} (h : t.find? p = some node) :
    t.declared p = node.declarations := by
  simp [declared, nodeD, h]

/-- **A tree of rules has the nodes that its chains go through, and each node declares what the
chains that end there bring.** -/
theorem find?_ofRules (rules : List Rule) (p : List Text) :
    (((ofRules rules).find? p).isSome ↔
      p = [] ∨ ∃ r ∈ rules, ∃ chain ∈ r.selectors, p <+: chain.path) ∧
    ∀ node, (ofRules rules).find? p = some node →
      node.declarations = rules.flatMap fun r => r.selectors.flatMap fun chain =>
        if chain.path = p then r.declarations else [] := by
  refine ⟨isSome_find?_ofRules rules p, fun node h => ?_⟩
  rw [← declared_of_find? h, declared_ofRules]

end Tree
end StyleNest
