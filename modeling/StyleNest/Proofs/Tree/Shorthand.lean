import StyleNest.Proofs.Tree.Rebuild
import StyleNest.Scss.Lines

/-!
Rules that are short for others.

The chains of a rule are added one after the other, so a rule with a list of them is short for a
rule for each. A block may be split as well if no path is named twice. Its second part then comes
to a path later than it did, but a node that is there takes declarations without moving, so what is
added to it may wait.
-/

namespace StyleNest

open Selector Sheet

/-! ### Changes of children -/

namespace Forest

variable {f : Forest} {a b : Text}

/-- A change counts for what it makes of the one child. -/
lemma update_congr {u v : Tree → Tree} (h : u (f.childD a) = v (f.childD a)) :
    f.update a u = f.update a v := by
  induction f with
  | nil =>
    have h : u ⟨[], nil⟩ = v ⟨[], nil⟩ := h
    simp only [update, h]
  | cons text ds below next _ ih =>
    by_cases ht : text = a
    · have h : u ⟨ds, below⟩ = v ⟨ds, below⟩ := by simpa [childD, get?, ht] using h
      simp only [update, if_pos ht, h]
    · have h : u (next.childD a) = v (next.childD a) := by simpa [childD, get?, ht] using h
      simp only [update, if_neg ht, ih h]

/-- Two children may be changed in either order if the first one is there. If neither was, the one
that is changed first would stand first. -/
lemma update_comm (ha : (f.get? a).isSome) (hab : a ≠ b) (u v : Tree → Tree) :
    (f.update a u).update b v = (f.update b v).update a u := by
  induction f with
  | nil => cases ha
  | cons text ds below next _ ih =>
    by_cases hta : text = a
    · subst hta
      simp [update, hab]
    by_cases htb : text = b
    · subst htb
      simp [update, hta]
    · have hnext : (next.get? a).isSome := by simpa [get?, hta] using ha
      simp [update, hta, htb, ih hnext]

end Forest

/-! ### Declarations that wait -/

namespace Tree

variable {t : Tree} {p q : List Text} {ds ds' : List Declaration}

lemma add_add (t : Tree) (p : List Text) (ds ds' : List Declaration) :
    (t.add p ds).add p ds' = t.add p (ds ++ ds') := by
  induction p generalizing t with
  | nil => simp [add]
  | cons text p ih => simp [add, Forest.update_update, ih]

/-- What is added to a node that is there may as well be added later. -/
lemma add_comm (hp : (t.find? p).isSome) (hpq : p ≠ q) :
    (t.add p ds).add q ds' = (t.add q ds').add p ds := by
  induction p generalizing t q with
  | nil =>
    cases q with
    | nil => exact absurd rfl hpq
    | cons b q => rfl
  | cons a p ih =>
    cases q with
    | nil => rfl
    | cons b q =>
      have hchild : (t.children.get? a).isSome := by
        rw [find?_cons] at hp
        exact Option.isSome_of_isSome_bind hp
      simp only [add]
      congr 1
      by_cases hab : a = b
      · subst hab
        rw [Forest.update_update, Forest.update_update]
        refine Forest.update_congr (ih ?_ fun e => hpq (by rw [e]))
        obtain ⟨c, hc⟩ := Option.isSome_iff_exists.mp hchild
        rw [find?_cons, hc] at hp
        rwa [Forest.childD, hc]
      · exact Forest.update_comm hchild hab _ _

/-- It may wait until all other paths have been served. -/
lemma addAll_add (hp : (t.find? p).isSome) {ps : List (List Text × List Declaration)}
    (h : ∀ x ∈ ps, p ≠ x.1) : (t.add p ds).addAll ps = (t.addAll ps).add p ds := by
  induction ps generalizing t with
  | nil => rfl
  | cons x ps ih =>
    rw [List.forall_mem_cons] at h
    have hthere : ((t.add x.1 x.2).find? p).isSome := isSome_find?_add.mpr (.inl hp)
    calc (t.add p ds).addAll (x :: ps)
        = ((t.add p ds).add x.1 x.2).addAll ps := rfl
      _ = ((t.add x.1 x.2).add p ds).addAll ps := by rw [add_comm hp h.1]
      _ = (t.addAll (x :: ps)).add p ds := ih hthere h.2

/-- Declarations for some paths, once for each path. -/
def placedAt (paths : List (List Text)) (ds : List Declaration) :
    List (List Text × List Declaration) :=
  paths.map fun p => (p, ds)

/-- A list of declarations may be dealt out in two rounds. -/
lemma addAll_placedAt_append {paths : List (List Text)} (h : paths.Nodup) (t : Tree)
    (ds ds' : List Declaration) :
    t.addAll (placedAt paths (ds ++ ds')) =
      (t.addAll (placedAt paths ds)).addAll (placedAt paths ds') := by
  induction paths generalizing t with
  | nil => rfl
  | cons p paths ih =>
    obtain ⟨hp, hpaths⟩ := List.nodup_cons.mp h
    have hothers : ∀ x ∈ placedAt paths ds, p ≠ x.1 := by
      intro x hx
      obtain ⟨q, hq, rfl⟩ := List.mem_map.mp hx
      exact fun e => hp (e ▸ hq)
    have hthere : ((t.add p ds).find? p).isSome :=
      isSome_find?_add.mpr (.inr (List.prefix_refl p))
    calc t.addAll (placedAt (p :: paths) (ds ++ ds'))
        = (t.add p (ds ++ ds')).addAll (placedAt paths (ds ++ ds')) := rfl
      _ = ((t.add p (ds ++ ds')).addAll (placedAt paths ds)).addAll (placedAt paths ds') :=
          ih hpaths _
      _ = (((t.add p ds).addAll (placedAt paths ds)).add p ds').addAll (placedAt paths ds') := by
          rw [← add_add, addAll_add hthere hothers]
      _ = (t.addAll (placedAt (p :: paths) ds)).addAll (placedAt (p :: paths) ds') := rfl

end Tree

/-! ### Rules -/

/-- A rule for each chain of a rule. -/
def Sheet.Rule.unlisted (r : Rule) : List Rule :=
  r.selectors.map fun chain => ⟨[chain], r.declarations⟩

lemma Sheet.Rule.placements_unlisted (r : Rule) :
    r.unlisted.flatMap Rule.placements = r.placements := by
  rw [unlisted, List.flatMap_map, placements, List.map_eq_flatMap]
  rfl

lemma Sheet.Rule.placements_eq_placedAt (r : Rule) :
    r.placements = Tree.placedAt (r.selectors.map Chain.path) r.declarations := by
  simp [placements, Tree.placedAt]

namespace Tree

/-- Rules may be replaced by others that add the same to every tree. -/
lemma ofRules_replace {rs rs' : List Rule}
    (h : ∀ t : Tree, t.addAll (rs.flatMap Rule.placements) =
      t.addAll (rs'.flatMap Rule.placements)) (before after : List Rule) :
    ofRules (before ++ rs ++ after) = ofRules (before ++ rs' ++ after) := by
  have hsplit : ∀ rs : List Rule, ofRules (before ++ rs ++ after) =
      ((ofRules before).addAll (rs.flatMap Rule.placements)).addAll
        (after.flatMap Rule.placements) := fun rs => by
    simp [ofRules_eq_addAll, addAll]
  rw [hsplit, hsplit, h]

/-- **Lists of selectors and split blocks are only shorthand.** Wherever a rule stands, the tree is
the same if each of its chains gets a rule of its own. It is the same if the rule is written once
for either part of its declarations, unless it names a path twice. So the same is printed. -/
theorem ofRules_shorthand (before after : List Rule) :
    (∀ r : Rule,
      ofRules (before ++ r.unlisted ++ after) = ofRules (before ++ r :: after) ∧
      ∀ i, Scss.print i (ofRules (before ++ r.unlisted ++ after)) =
        Scss.print i (ofRules (before ++ r :: after))) ∧
    ∀ (selectors : List Chain) (ds ds' : List Declaration),
      (selectors.map Chain.path).Nodup →
      let split := before ++ ⟨selectors, ds⟩ :: ⟨selectors, ds'⟩ :: after
      let whole := before ++ ⟨selectors, ds ++ ds'⟩ :: after
      ofRules split = ofRules whole ∧
      ∀ i, Scss.print i (ofRules split) = Scss.print i (ofRules whole) := by
  constructor
  · intro r
    have htree : ofRules (before ++ r.unlisted ++ after) = ofRules (before ++ [r] ++ after) := by
      refine ofRules_replace (fun t => ?_) before after
      rw [Rule.placements_unlisted, List.flatMap_singleton]
    rw [List.append_assoc before [r] after] at htree
    exact ⟨htree, fun i => congrArg (Scss.print i) htree⟩
  · intro selectors ds ds' hpaths split whole
    have htree : ofRules (before ++ [⟨selectors, ds⟩, ⟨selectors, ds'⟩] ++ after) =
        ofRules (before ++ [⟨selectors, ds ++ ds'⟩] ++ after) := by
      refine ofRules_replace (fun t => ?_) before after
      simp only [List.flatMap_cons, List.flatMap_nil, List.append_nil,
        Rule.placements_eq_placedAt]
      rw [addAll_placedAt_append hpaths, addAll, List.foldl_append]
      rfl
    rw [List.append_assoc, List.append_assoc] at htree
    exact ⟨htree, fun i => congrArg (Scss.print i) htree⟩

/-- A path may begin with another one of the same rule, and their nodes may be there before. -/
theorem ofRules_shorthand_nested :
    let a : Component := ⟨['a'], .tag, by simp⟩
    let b : Component := ⟨[' ', 'b'], .tag, by simp⟩
    let x : Declaration := ⟨['x'], ['1']⟩
    let y : Declaration := ⟨['y'], []⟩
    let chains : List Chain := [[a, b], [b], [a], []]
    (chains.map Chain.path).Nodup ∧
      ofRules ([⟨[[a]], [y]⟩] ++ ⟨chains, [x, y]⟩ :: ⟨chains, [x]⟩ :: [⟨[[b, a]], [x]⟩]) =
        ofRules ([⟨[[a]], [y]⟩] ++ ⟨chains, [x, y, x]⟩ :: [⟨[[b, a]], [x]⟩]) := by
  intro a b x y chains
  obtain ⟨-, hsplit⟩ := ofRules_shorthand [⟨[[a]], [y]⟩] [⟨[[b, a]], [x]⟩]
  have hpaths : (chains.map Chain.path).Nodup := by decide
  exact ⟨hpaths, (hsplit chains [x, y] [x] hpaths).1⟩

/-- A block with one path twice is not to be split. -/
example :
    let chain : Chain := [⟨['a'], .tag, by simp⟩]
    let x : Declaration := ⟨['x'], []⟩
    let y : Declaration := ⟨['y'], []⟩
    ofRules [⟨[chain, chain], [x]⟩, ⟨[chain, chain], [y]⟩] ≠
      ofRules [⟨[chain, chain], [x, y]⟩] := by
  decide

end Tree
end StyleNest
