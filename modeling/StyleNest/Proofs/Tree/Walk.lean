import StyleNest.Proofs.Tree.Paths

/-!
A walk through a tree, with the way to each node.

A node is visited under the path that leads to it. Where no two children of a node share a text,
which is so in every tree of rules, looking the path up gives the node back.
-/

namespace StyleNest

open Sheet

/-! ### Texts of the edges -/

namespace Forest

lemma texts_update (f : Forest) (key : Text) (g : Tree → Tree) :
    (f.update key g).texts = if key ∈ f.texts then f.texts else f.texts ++ [key] := by
  induction f with
  | nil => rfl
  | cons text ds below next _ ih =>
    by_cases h : text = key
    · simp [update, texts, h]
    · by_cases hk : key ∈ next.texts <;> simp [update, texts, h, ih, hk, Ne.symm h]

/-- No two nodes side by side share a text, here and below. -/
def Distinct : Forest → Prop
  | nil => True
  | cons text _ below next => text ∉ next.texts ∧ below.Distinct ∧ next.Distinct

lemma distinct_childD {f : Forest} (h : f.Distinct) (key : Text) :
    (f.childD key).children.Distinct := by
  induction f with
  | nil => trivial
  | cons text ds below next _ ih =>
    obtain ⟨-, hb, hn⟩ := h
    by_cases hk : text = key
    · simpa [childD, get?, hk] using hb
    · simpa [childD, get?, hk] using ih hn

lemma Distinct.update {f : Forest} {key : Text} {g : Tree → Tree} (h : f.Distinct)
    (hg : (g (f.childD key)).children.Distinct) : (f.update key g).Distinct := by
  induction f with
  | nil => exact ⟨by simp [texts], hg, trivial⟩
  | cons text ds below next _ ih =>
    obtain ⟨ht, hb, hn⟩ := h
    by_cases hk : text = key
    · subst hk
      rw [Forest.update, if_pos rfl]
      exact ⟨ht, by simpa [childD, get?] using hg, hn⟩
    · rw [Forest.update, if_neg hk]
      refine ⟨?_, hb, ih hn (by simpa [childD, get?, hk] using hg)⟩
      rw [texts_update]
      split <;> simp [ht, hk]

end Forest

namespace Tree

/-- No two children of a node share a text, at any node. -/
def Distinct (t : Tree) : Prop := t.children.Distinct

lemma distinct_empty : empty.Distinct := trivial

lemma Distinct.add {t : Tree} {p : List Text} {ds : List Declaration} (h : t.Distinct) :
    (t.add p ds).Distinct := by
  induction p generalizing t with
  | nil => exact h
  | cons text p ih => exact Forest.Distinct.update h (ih (Forest.distinct_childD h text))

lemma Distinct.addAll {t : Tree} {ps : List (List Text × List Declaration)} (h : t.Distinct) :
    (t.addAll ps).Distinct := by
  induction ps generalizing t with
  | nil => exact h
  | cons x ps ih => exact ih h.add

lemma distinct_ofRules (rules : List Rule) : (ofRules rules).Distinct := by
  rw [ofRules_eq_addAll]
  exact distinct_empty.addAll

/-! ### Visits -/

/-- A node as a walk meets it, with the way to it. -/
structure Visit where
  path : List Text
  node : Tree

def Visit.entry (v : Visit) : Entry := ⟨v.path.length - 1, v.path.getLastD [], v.node⟩

lemma Visit.text_mem_path {v : Visit} (h : v.path ≠ []) : v.entry.text ∈ v.path := by
  rw [entry, List.getLastD_eq_getLast?, List.getLast?_eq_some_getLast h]
  exact List.getLast_mem h

end Tree

/-- The nodes of a walk, those of the first level lying below the path `above`. -/
def Forest.visits (above : List Text) : Forest → List Tree.Visit
  | nil => []
  | cons text declarations below next =>
    ⟨above ++ [text], ⟨declarations, below⟩⟩ :: below.visits (above ++ [text]) ++
      next.visits above

def Tree.visits (t : Tree) : List Tree.Visit := t.children.visits []

lemma Forest.walk_eq_visits (f : Forest) (above : List Text) :
    f.walk above.length = (f.visits above).map Tree.Visit.entry := by
  induction f generalizing above with
  | nil => rfl
  | cons text ds below next ihb ihn =>
    have hb := ihb (above ++ [text])
    rw [List.length_append, List.length_singleton] at hb
    simp [walk, visits, hb, ihn, Tree.Visit.entry]

lemma Tree.walk_eq_visits (t : Tree) : t.walk = t.visits.map Visit.entry :=
  t.children.walk_eq_visits []

/-- The entries of a walk, each with the texts on the way to it. The way to an entry goes through
the latest entry of each smaller depth, and `above` is the way to the entry before the first. -/
def Tree.withPaths (above : List Text) : List Tree.Entry → List (List Text × Tree.Entry)
  | [] => []
  | e :: es =>
    let path := above.take e.depth ++ [e.text]
    (path, e) :: withPaths path es

/-- The paths of the entries are found again from their depths and texts. -/
lemma Forest.withPaths_walk (f : Forest) (above : List Text) {stack : List Text}
    (h : stack.take above.length = above) (es : List Tree.Entry) :
    ∃ stack', stack'.take above.length = above ∧
      Tree.withPaths stack (f.walk above.length ++ es) =
        (f.visits above).map (fun v => (v.path, v.entry)) ++ Tree.withPaths stack' es := by
  induction f generalizing above stack es with
  | nil => exact ⟨stack, h, rfl⟩
  | cons text ds below next ihb ihn =>
    obtain ⟨s, hs, eb⟩ := ihb (above ++ [text]) (List.take_length) (next.walk above.length ++ es)
    rw [List.length_append, List.length_singleton] at hs eb
    have hs' : s.take above.length = above := by
      have := congrArg (List.take above.length) hs
      rwa [List.take_take, Nat.min_eq_left (Nat.le_succ _), List.take_left] at this
    obtain ⟨s', hs', en⟩ := ihn above hs' es
    refine ⟨s', hs', ?_⟩
    simp [walk, visits, Tree.withPaths, h, eb, en, Tree.Visit.entry]

lemma Tree.withPaths_walk (t : Tree) :
    Tree.withPaths [] t.walk = t.visits.map fun v => (v.path, v.entry) := by
  have hroot : ([] : List Text).take ([] : List Text).length = [] := rfl
  obtain ⟨s, -, e⟩ := t.children.withPaths_walk [] hroot []
  rw [List.append_nil, Tree.withPaths, List.append_nil] at e
  exact e

/-! ### Visits and paths -/

namespace Forest

lemma path_of_mem_visits {f : Forest} {above : List Text} {v : Tree.Visit}
    (hv : v ∈ f.visits above) : ∃ text ∈ f.texts, ∃ p, v.path = above ++ text :: p := by
  induction f generalizing above with
  | nil => cases hv
  | cons text ds below next ihb ihn =>
    simp only [visits, List.cons_append, List.mem_cons, List.mem_append] at hv
    rcases hv with rfl | hv | hv
    · exact ⟨text, by simp [texts], [], rfl⟩
    · obtain ⟨text', -, p, e⟩ := ihb hv
      exact ⟨text, by simp [texts], text' :: p, by simp [e]⟩
    · obtain ⟨text', ht, p, e⟩ := ihn hv
      exact ⟨text', by simp [texts, ht], p, e⟩

lemma find?_of_mem_visits {f : Forest} {p : List Text} {text : Text} {t : Tree}
    (hf : f.Distinct) (above : List Text) (hv : ⟨above ++ text :: p, t⟩ ∈ f.visits above) :
    (f.get? text).bind (·.find? p) = some t := by
  induction f generalizing above text p with
  | nil => cases hv
  | cons key ds below next ihb ihn =>
    obtain ⟨ht, hb, hn⟩ := hf
    simp only [visits, List.cons_append, List.mem_cons, List.mem_append] at hv
    rcases hv with e | hv | hv
    · obtain ⟨hp, rfl⟩ := Tree.Visit.mk.inj e
      obtain ⟨rfl, rfl⟩ := List.cons.inj (List.append_cancel_left hp)
      simp [get?]
    · obtain ⟨text', -, q, e⟩ := path_of_mem_visits hv
      rw [List.append_assoc] at e
      obtain ⟨rfl, rfl⟩ := List.cons.inj (List.append_cancel_left e)
      have h := ihb hb (above ++ [text]) (by simpa using hv)
      simpa [get?, Tree.find?_cons] using h
    · obtain ⟨text', hm, q, e⟩ := path_of_mem_visits hv
      obtain ⟨rfl, rfl⟩ := List.cons.inj (List.append_cancel_left e)
      have hne : key ≠ text := by
        rintro rfl
        exact ht hm
      simpa [get?, hne] using ihn hn above hv

lemma mem_visits_of_find? {f : Forest} {p : List Text} {text : Text} {t : Tree}
    (above : List Text) (h : (f.get? text).bind (·.find? p) = some t) :
    ⟨above ++ text :: p, t⟩ ∈ f.visits above := by
  induction f generalizing above text p with
  | nil => cases h
  | cons key ds below next ihb ihn =>
    simp only [visits, List.cons_append, List.mem_cons, List.mem_append]
    by_cases hk : key = text
    · subst hk
      simp only [get?, if_true, Option.bind_some] at h
      cases p with
      | nil =>
        cases h
        exact .inl rfl
      | cons text p =>
        have hb := ihb (above ++ [key]) h
        exact .inr (.inl (by simpa using hb))
    · rw [get?, if_neg hk] at h
      exact .inr (.inr (ihn above h))

/-- No path is walked twice. -/
lemma nodup_visits {f : Forest} (hf : f.Distinct) (above : List Text) :
    ((f.visits above).map Tree.Visit.path).Nodup := by
  induction f generalizing above with
  | nil => exact List.nodup_nil
  | cons key ds below next ihb ihn =>
    obtain ⟨ht, hb, hn⟩ := hf
    have hbelow : ∀ v ∈ below.visits (above ++ [key]), ∃ text p,
        v.path = above ++ key :: text :: p := by
      intro v hv
      obtain ⟨text, -, p, e⟩ := path_of_mem_visits hv
      exact ⟨text, p, by simp [e]⟩
    have hnext : ∀ v ∈ next.visits above, ∀ p, v.path ≠ above ++ key :: p := by
      intro v hv p e
      obtain ⟨text, hm, q, e'⟩ := path_of_mem_visits hv
      rw [e] at e'
      obtain ⟨rfl, -⟩ := List.cons.inj (List.append_cancel_left e')
      exact ht hm
    rw [visits, List.cons_append, List.map_cons, List.map_append, List.nodup_cons,
      List.nodup_append]
    refine ⟨fun hm => ?_, ihb hb _, ihn hn _, ?_⟩
    · rcases List.mem_append.mp hm with hm | hm
      · obtain ⟨v, hv, e⟩ := List.mem_map.mp hm
        obtain ⟨text, p, e'⟩ := hbelow v hv
        simp [e'] at e
      · obtain ⟨v, hv, e⟩ := List.mem_map.mp hm
        exact hnext v hv [] e
    · intro _ hx _ hy e
      obtain ⟨v, hv, rfl⟩ := List.mem_map.mp hx
      obtain ⟨w, hw, rfl⟩ := List.mem_map.mp hy
      obtain ⟨text, p, e'⟩ := hbelow v hv
      exact hnext w hw (text :: p) (by rw [← e, e'])

end Forest

namespace Tree

variable {t : Tree}

lemma nodup_visits (ht : t.Distinct) : (t.visits.map Visit.path).Nodup :=
  Forest.nodup_visits ht []

/-- The visited paths are those that lead to a node below the root. -/
lemma mem_visits (ht : t.Distinct) (v : Visit) :
    v ∈ t.visits ↔ v.path ≠ [] ∧ t.find? v.path = some v.node := by
  obtain ⟨path, node⟩ := v
  constructor
  · intro hv
    obtain ⟨text, -, p, e⟩ := Forest.path_of_mem_visits hv
    rw [List.nil_append] at e
    subst e
    exact ⟨List.cons_ne_nil text p, Forest.find?_of_mem_visits ht [] hv⟩
  · rintro ⟨hne, h⟩
    obtain ⟨text, p, rfl⟩ := List.exists_cons_of_ne_nil hne
    exact Forest.mem_visits_of_find? [] h

end Tree

/-! ### The first level -/

namespace Forest

/-- The nodes of the first level, each with the text of its edge. -/
def nodes : Forest → List (Text × Tree)
  | nil => []
  | cons text ds below next => (text, ⟨ds, below⟩) :: next.nodes

lemma exists_mem_nodes {f : Forest} {text : Text} (h : text ∈ f.texts) :
    ∃ t, (text, t) ∈ f.nodes := by
  induction f with
  | nil => cases h
  | cons text' ds below next _ ih =>
    rcases List.mem_cons.mp h with rfl | h
    · exact ⟨⟨ds, below⟩, by simp [nodes]⟩
    · obtain ⟨t, ht⟩ := ih h
      exact ⟨t, List.mem_cons_of_mem _ ht⟩

/-- A walk visits the nodes of the first level and what lies below them. -/
lemma mem_visits_of_mem_nodes {f : Forest} {x : Text × Tree} (above : List Text)
    (h : x ∈ f.nodes) :
    ⟨above ++ [x.1], x.2⟩ ∈ f.visits above ∧
      ∀ v ∈ x.2.children.visits (above ++ [x.1]), v ∈ f.visits above := by
  induction f with
  | nil => cases h
  | cons text ds below next _ ih =>
    simp only [visits, List.cons_append, List.mem_cons, List.mem_append]
    rcases List.mem_cons.mp h with rfl | h
    · exact ⟨.inl rfl, fun v hv => .inr (.inl hv)⟩
    · obtain ⟨hx, hbelow⟩ := ih h
      exact ⟨.inr (.inr hx), fun v hv => .inr (.inr (hbelow v hv))⟩

/-- Without nodes below the first level a walk visits that level only. -/
lemma visits_of_leaf {f : Forest} (h : ∀ x ∈ f.nodes, x.2.children = .nil) :
    f.visits [] = f.nodes.map fun x => ⟨[x.1], x.2⟩ := by
  induction f with
  | nil => rfl
  | cons text ds below next _ ih =>
    rw [nodes, List.forall_mem_cons] at h
    obtain ⟨rfl, hnext⟩ : below = .nil ∧ _ := h
    simp [visits, nodes, ih hnext]

end Forest

end StyleNest
