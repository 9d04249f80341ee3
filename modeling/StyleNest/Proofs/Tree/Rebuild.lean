import StyleNest.Proofs.Tree.Walk

/-!
A tree made again from what a walk meets.

Adding the declarations of each node at its path, in the order of a walk, builds the children of
every node in their order, so a tree without declarations at its root is given back.
-/

namespace StyleNest

open Sheet

namespace Forest

/-- The nodes of one forest behind those of another. -/
def append : Forest → Forest → Forest
  | nil, g => g
  | cons text ds below next, g => cons text ds below (next.append g)

@[simp] lemma append_nil (f : Forest) : f.append nil = f := by
  induction f with
  | nil => rfl
  | cons text ds below next _ ih => rw [append, ih]

lemma append_assoc (f g h : Forest) : (f.append g).append h = f.append (g.append h) := by
  induction f with
  | nil => rfl
  | cons text ds below next _ ih => rw [append, append, append, ih]

lemma texts_append (f g : Forest) : (f.append g).texts = f.texts ++ g.texts := by
  induction f with
  | nil => rfl
  | cons text ds below next _ ih => rw [append, texts, ih, texts, List.cons_append]

lemma update_of_not_mem {f : Forest} {key : Text} (h : key ∉ f.texts) (u : Tree → Tree) :
    f.update key u = f.append (nil.update key u) := by
  induction f with
  | nil => rfl
  | cons text ds below next _ ih =>
    simp only [texts, List.mem_cons, not_or] at h
    have e : (cons text ds below next).update key u = cons text ds below (next.update key u) :=
      if_neg (Ne.symm h.1)
    rw [e, ih h.2, append]

/-- Of two changes to one child the second meets what the first has made. -/
lemma update_update (f : Forest) (key : Text) (u v : Tree → Tree) :
    (f.update key u).update key v = f.update key fun t => v (u t) := by
  induction f with
  | nil => simp [update]
  | cons text ds below next _ ih =>
    by_cases h : text = key
    · simp [update, h]
    · simp [update, h, ih]

/-- The visits below a node are those of its children with the way to the node before them. -/
lemma visits_append_above (f : Forest) (a b : List Text) :
    f.visits (a ++ b) = (f.visits b).map fun v => { v with path := a ++ v.path } := by
  induction f generalizing b with
  | nil => rfl
  | cons text ds below next ihb ihn =>
    simp [visits, ihb, ihn]

end Forest

namespace Tree

/-- What a node brings to a tree: its declarations at its path. -/
def Visit.placement (v : Visit) : List Text × List Declaration := (v.path, v.node.declarations)

/-- Adding at a child and below it changes that child alone. -/
lemma addAll_below (t : Tree) (key : Text) (ps : List (List Text × List Declaration))
    (u : Tree → Tree) :
    ({ t with children := t.children.update key u } : Tree).addAll
        (ps.map fun x => (key :: x.1, x.2)) =
      { t with children := t.children.update key fun c => (u c).addAll ps } := by
  induction ps generalizing u with
  | nil => rfl
  | cons x ps ih =>
    have e : ({ t with children := t.children.update key u } : Tree).add (key :: x.1) x.2 =
        { t with children := t.children.update key fun c => (u c).add x.1 x.2 } := by
      rw [add, Forest.update_update]
    have h := ih fun c => (u c).add x.1 x.2
    rw [← e] at h
    exact h

/-- The nodes of a walk are added behind those that are there. -/
lemma addAll_visits {f g : Forest} (hf : f.Distinct) (hg : ∀ text ∈ f.texts, text ∉ g.texts)
    (ds : List Declaration) :
    (⟨ds, g⟩ : Tree).addAll ((f.visits []).map Visit.placement) = ⟨ds, g.append f⟩ := by
  induction f generalizing g ds with
  | nil => rw [Forest.append_nil]; rfl
  | cons text own below next ihb ihn =>
    obtain ⟨ht, hb, hn⟩ := hf
    have hnew : text ∉ g.texts := hg text (by simp [Forest.texts])
    have hbelow : (below.visits [text]).map Visit.placement =
        ((below.visits []).map Visit.placement).map fun x => (text :: x.1, x.2) := by
      rw [← List.append_nil [text], Forest.visits_append_above]
      simp [Visit.placement, Function.comp_def]
    have hblock : (⟨ds, g⟩ : Tree).addAll
        (([text], own) :: (below.visits [text]).map Visit.placement) =
          ⟨ds, g.append (.cons text own below .nil)⟩ := by
      have hchild := ihb (g := .nil) hb (by simp [Forest.texts]) own
      rw [hbelow]
      have h := addAll_below ⟨ds, g⟩ text ((below.visits []).map Visit.placement) (·.add [] own)
      refine h.trans ?_
      rw [Forest.update_of_not_mem hnew]
      simp only [Forest.update, add, List.nil_append, hchild, Forest.append]
    have hnext := ihn (g := g.append (.cons text own below .nil)) hn ?_ ds
    · have e : ((Forest.cons text own below next).visits []).map Visit.placement =
          (([text], own) :: (below.visits [text]).map Visit.placement) ++
            (next.visits []).map Visit.placement := by
        simp [Forest.visits, Visit.placement]
      rw [e, addAll, List.foldl_append, ← addAll, ← addAll, hblock, hnext, Forest.append_assoc]
      rfl
    · intro text' hm
      have hne : text' ≠ text := fun e => ht (e ▸ hm)
      simp [Forest.texts_append, Forest.texts, hne, hg text' (by simp [Forest.texts, hm])]

/-- A tree is made again from the visits of a walk. -/
lemma addAll_placements {t : Tree} (ht : t.Distinct) (hroot : t.declarations = []) :
    empty.addAll (t.visits.map Visit.placement) = t := by
  obtain ⟨ds, f⟩ := t
  obtain rfl : ds = [] := hroot
  exact addAll_visits ht (by simp [Forest.texts]) []

/-- Rules that bring what a tree holds, in the order of a walk, make that tree. -/
lemma ofRules_eq_of_placements {t : Tree} {rs : List Rule} (ht : t.Distinct)
    (hroot : t.declarations = []) (h : rs.flatMap Rule.placements = t.visits.map Visit.placement) :
    ofRules rs = t := by
  rw [ofRules_eq_addAll, h]
  exact addAll_placements ht hroot

end Tree
end StyleNest
