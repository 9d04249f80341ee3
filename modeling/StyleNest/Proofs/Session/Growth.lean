import StyleNest.Proofs.Session.Gathering
import StyleNest.Proofs.Tree.Count
import StyleNest.Proofs.Tree.FirstSeen

/-!
The tree of a session as it grows.

Adding makes the nodes on the way to its path that are not there, each as the last child of the one
above it, and declares at the end of the path. Every other node is left as it was, and so is the
whole session by a step that only looks.
-/

namespace StyleNest

open Sheet

/-! ### Children with texts of their own -/

namespace Forest

variable {f : Forest}

lemma Distinct.nodup_texts (h : f.Distinct) : f.texts.Nodup := by
  induction f with
  | nil => exact List.nodup_nil
  | cons text ds below next _ ih =>
    obtain ⟨ht, -, hn⟩ := h
    exact List.nodup_cons.mpr ⟨ht, ih hn⟩

lemma Distinct.of_get? {key : Text} {t : Tree} (h : f.Distinct) (hk : f.get? key = some t) :
    t.Distinct := by
  have hchild : f.childD key = t := by rw [childD, hk, Option.getD_some]
  rw [← hchild]
  exact distinct_childD h key

end Forest

namespace Tree

variable {t node : Tree} {p q : List Text} {ds : List Declaration}

lemma Distinct.of_find? (h : t.Distinct) (hp : t.find? p = some node) : node.Distinct := by
  induction p generalizing t with
  | nil =>
    cases hp
    exact h
  | cons text p ih =>
    obtain ⟨c, hc, hp⟩ := Option.bind_eq_some_iff.mp hp
    exact ih (Forest.Distinct.of_get? h hc) hp

/-- What adding makes of a node: its declarations, and its children in order. -/
lemma find?_add_eq_some (h : (t.add p ds).find? q = some node) :
    node.declarations = (t.nodeD q).declarations ++ (if q = p then ds else []) ∧
    (∀ text rest, p = q ++ text :: rest → text ∉ (t.nodeD q).children.texts →
      node.children.texts = (t.nodeD q).children.texts ++ [text]) ∧
    ((∀ text rest, p = q ++ text :: rest → text ∈ (t.nodeD q).children.texts) →
      node.children.texts = (t.nodeD q).children.texts) := by
  have hnode : (t.add p ds).nodeD q = node := by rw [nodeD, h, Option.getD_some]
  rw [← hnode]
  refine ⟨?_, ?_, fun hthere => ?_⟩
  · have hdeclared : (t.add p ds).declared q = t.declared q ++ if p = q then ds else [] :=
      declared_add
    rw [if_congr (eq_comm : q = p ↔ p = q) rfl rfl]
    exact hdeclared
  · rintro text rest rfl hnew
    rw [texts_nodeD_add_append, if_neg hnew]
  · by_cases hway : ∃ text rest, p = q ++ text :: rest
    · obtain ⟨text, rest, rfl⟩ := hway
      rw [texts_nodeD_add_append, if_pos (hthere text rest rfl)]
    · push Not at hway
      exact texts_nodeD_add_of_forall_ne hway

end Tree

/-! ### Steps -/

namespace Session

/-- The step asks for something and gives nothing. -/
def Step.Looks : Step → Prop
  | .find _ | .walk _ _ | .count _ | .print _ _ => True
  | .parse _ | .build | .add _ _ => False

variable {s : Session}

lemma step_of_looks {x : Step} (h : x.Looks) : (s.step x).1 = s := by
  cases x with
  | parse | build | add => cases h
  | find | walk | count | print => rfl

lemma run_of_looks {steps : List Step} (h : ∀ x ∈ steps, x.Looks) : (s.run steps).1 = s := by
  induction steps with
  | nil => rfl
  | cons x xs ih =>
    rw [List.forall_mem_cons] at h
    rw [run_cons, step_of_looks h.1, ih h.2]

lemma distinct_step (h : s.tree.Distinct) (x : Step) : (s.step x).1.tree.Distinct := by
  cases x with
  | parse source =>
    cases hs : Sheet.parse source with
    | ok rs => rwa [step_parse_of_ok hs]
    | error e => rwa [step_parse_of_error hs]
  | build => exact Tree.distinct_ofRules s.rules
  | add p ds => exact h.add
  | find | walk | count | print => exact h

lemma distinct_run (h : s.tree.Distinct) (steps : List Step) : (s.run steps).1.tree.Distinct := by
  induction steps generalizing s with
  | nil => exact h
  | cons x xs ih =>
    rw [run_cons]
    exact ih (distinct_step h x)

/-- **Adding changes the nodes on the way to its path and no others.** Whatever rules a session is
given and whatever it has done, a node is there afterwards if it was before or lies on the way. What
is added is declared at the end of the path, a node on the way has the next text of the path for its
last child unless it had such a child already, and no node has two children of one text. A step that
only looks changes nothing, also if it finds nothing. -/
theorem tree_step_add :
    (∀ (rules : List Rule) (steps : List Step) (p q : List Text) (ds : List Declaration),
      let s := (run ⟨.empty, rules⟩ steps).1
      let t := s.tree
      let t' := (s.step (.add p ds)).1.tree
      let old := (t.find? q).getD .empty
      ((t'.find? q).isSome ↔ (t.find? q).isSome ∨ q <+: p) ∧
      (∀ node, t'.find? q = some node →
        node.declarations = old.declarations ++ (if q = p then ds else []) ∧
        (∀ text rest, p = q ++ text :: rest → text ∉ old.children.texts →
          node.children.texts = old.children.texts ++ [text]) ∧
        ((∀ text rest, p = q ++ text :: rest → text ∈ old.children.texts) →
          node.children.texts = old.children.texts) ∧
        node.children.texts.Nodup) ∧
      t'.count = t.count + ds.length) ∧
    (∀ (s : Session) (steps : List Step), (∀ x ∈ steps, x.Looks) → (s.run steps).1 = s) ∧
    ∀ (s : Session) (p : List Text), s.tree.find? p = none → s.step (.find p) = (s, .absent) := by
  refine ⟨fun rules steps p q ds => ?_, fun s steps => run_of_looks, fun s p hp => ?_⟩
  · intro s t t' old
    have ht : t.Distinct := distinct_run Tree.distinct_empty steps
    refine ⟨Tree.isSome_find?_add, fun node hnode => ?_, Tree.count_add t p ds⟩
    obtain ⟨hdeclarations, hnew, hthere⟩ := Tree.find?_add_eq_some hnode
    exact ⟨hdeclarations, hnew, hthere, (ht.add.of_find? hnode).nodup_texts⟩
  · rw [step, look, hp]

/-- Of a path that is there in part, the last node that is there gets a new child behind its old
one, and the root keeps the children it has. -/
theorem tree_step_add_branching :
    let a : Text := ['a']
    let b : Text := [' ', 'b']
    let c : Text := ['.', 'c']
    let x : Declaration := ⟨['x'], ['1']⟩
    let s := (run ⟨.empty, [⟨[], [x]⟩]⟩ [.build, .find [c], .add [a, b] [x], .count [a]]).1
    let t' := (s.step (.add [a, c, b] [x, x])).1.tree
    (∃ node, t'.find? [a] = some node ∧ node.declarations = [] ∧
        node.children.texts = [b, c]) ∧
      (∃ node, t'.find? [] = some node ∧ node.children.texts = [a]) ∧
      (∃ node, t'.find? [a, b] = some node ∧ node.declarations = [x]) ∧ t'.count = 3 := by
  intro a b c x s t'
  obtain ⟨hadd, -, -⟩ := tree_step_add
  have hat := hadd [⟨[], [x]⟩] [.build, .find [c], .add [a, b] [x], .count [a]] [a, c, b]
  refine ⟨?_, ?_, ?_, ?_⟩
  · obtain ⟨-, hnode, -⟩ := hat [a] [x, x]
    obtain ⟨hdeclarations, hnew, -, -⟩ := hnode _ rfl
    exact ⟨_, rfl, hdeclarations, hnew c [b] rfl (by decide)⟩
  · obtain ⟨-, hnode, -⟩ := hat [] [x, x]
    obtain ⟨-, -, hthere, -⟩ := hnode _ rfl
    refine ⟨_, rfl, hthere fun text rest e => ?_⟩
    obtain ⟨rfl, -⟩ := List.cons.inj e
    decide
  · obtain ⟨-, hnode, -⟩ := hat [a, b] [x, x]
    exact ⟨_, rfl, (hnode _ rfl).1⟩
  · exact (hat [] [x, x]).2.2

end Session
end StyleNest
