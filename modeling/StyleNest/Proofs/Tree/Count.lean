import Mathlib.Algebra.GroupWithZero.Nat
import StyleNest.Proofs.Tree.Walk

/-!
The number of declarations in a tree.

Wherever a path leads, and whether its nodes are there or not, adding at its end adds what is given
and nothing else. So a tree of rules holds each declaration once for each chain of its rule. The
nodes of a walk hold all of them but those of the root.
-/

namespace StyleNest

open Selector Sheet

namespace Forest

/-- A change of one child changes the number by as much as it does at the child. -/
lemma count_update (f : Forest) (key : Text) {g : Tree → Tree} {n : Nat}
    (hg : ∀ t, (g t).count = t.count + n) : (f.update key g).count = f.count + n := by
  induction f with
  | nil => simpa [Tree.count, count, update] using hg ⟨[], .nil⟩
  | cons text ds below next _ ih =>
    by_cases h : text = key
    · have hchild := hg ⟨ds, below⟩
      simp only [Tree.count] at hchild
      simp only [update, if_pos h, count]
      omega
    · simp only [update, if_neg h, count, ih]
      omega

lemma sum_walk (f : Forest) (depth : Nat) :
    ((f.walk depth).map fun e => e.node.declarations.length).sum = f.count := by
  induction f generalizing depth with
  | nil => rfl
  | cons text ds below next ihb ihn =>
    rw [walk, List.cons_append, List.map_cons, List.map_append, List.sum_cons, List.sum_append,
      ihb, ihn, count, Nat.add_assoc]

end Forest

namespace Tree

lemma count_add (t : Tree) (p : List Text) (ds : List Declaration) :
    (t.add p ds).count = t.count + ds.length := by
  induction p generalizing t with
  | nil =>
    simp only [add, count, List.length_append]
    omega
  | cons text p ih =>
    have hchild := t.children.count_update text ih
    simp only [add, count, hchild]
    omega

lemma count_addAll (t : Tree) (ps : List (List Text × List Declaration)) :
    (t.addAll ps).count = t.count + (ps.map fun x => x.2.length).sum := by
  induction ps generalizing t with
  | nil => rfl
  | cons x ps ih =>
    have e : t.addAll (x :: ps) = (t.add x.1 x.2).addAll ps := rfl
    rw [e, ih, count_add, List.map_cons, List.sum_cons, Nat.add_assoc]

lemma sum_placements (r : Rule) : (r.placements.map fun x => x.2.length).sum = r.fanOut := by
  simp [Rule.placements, Rule.fanOut, Function.comp_def]

/-- A tree of rules holds each declaration once for each chain of its rule. -/
lemma count_ofRules (rules : List Rule) :
    (ofRules rules).count = (rules.map Rule.fanOut).sum := by
  have hempty : empty.count = 0 := rfl
  rw [ofRules_eq_addAll, count_addAll, hempty, Nat.zero_add]
  induction rules with
  | nil => rfl
  | cons r rules ih =>
    rw [List.flatMap_cons, List.map_append, List.sum_append, sum_placements, ih, List.map_cons,
      List.sum_cons]

/-- A walk meets all declarations but those of the root. -/
lemma count_eq_sum_walk (t : Tree) :
    t.count = t.declarations.length + (t.walk.map fun e => e.node.declarations.length).sum := by
  rw [count, walk, Forest.sum_walk]

end Tree
end StyleNest
