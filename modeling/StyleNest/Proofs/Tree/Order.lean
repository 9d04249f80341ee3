import Mathlib.Data.List.Induction
import Mathlib.Data.List.Triplewise
import StyleNest.Proofs.Tree.Walk

/-!
When a tree keeps its declarations in the order of its rules.

A node stands where its first chain put it, so a chain that comes back to an earlier node takes its
declarations there. Nothing moves exactly when the chains through any one node stand together and
no chain comes behind one that goes on from it.
-/

namespace StyleNest

open Selector Sheet

/-! ### Declarations in order -/

/-- Declarations with the path that they are declared at. -/
def declaredAt (path : List Text) (ds : List Declaration) : List (List Text × Declaration) :=
  ds.map fun d => (path, d)

/-- The declarations of some rules as they are written, for each chain a copy. -/
def Sheet.inSourceOrder (rules : List Rule) : List (List Text × Declaration) :=
  rules.flatMap fun r => r.selectors.flatMap fun chain => declaredAt chain.path r.declarations

/-- The paths of the chains of some rules. -/
def Sheet.chainPaths (rules : List Rule) : List (List Text) :=
  rules.flatMap fun r => r.selectors.map Chain.path

/-- The declarations of a tree as a walk meets them. -/
def Tree.inWalkOrder (t : Tree) : List (List Text × Declaration) :=
  (Tree.withPaths [] t.walk).flatMap fun x => declaredAt x.1 x.2.node.declarations

/-! ### Orders of paths -/

/-- The paths that go through any one node stand together. -/
def Contiguous (ps : List (List Text)) : Prop :=
  ∀ (q : List Text) (i j k : Nat) (hij : i < j) (hjk : j < k) (hk : k < ps.length),
    q <+: ps[i] → q <+: ps[k] → q <+: ps[j]

/-- No path comes behind one that goes on from it. -/
def ShorterFirst (ps : List (List Text)) : Prop :=
  ∀ (i j : Nat) (hij : i < j) (hj : j < ps.length), ps[j] <+: ps[i] → ps[j] = ps[i]

/-- What a path between two others has of them. -/
def Between (p m r : List Text) : Prop := ∀ q, q <+: p → q <+: r → q <+: m

/-- What two paths may be of each other when `p` comes first. -/
def MayPrecede (p r : List Text) : Prop := r <+: p → r = p

lemma contiguous_iff {ps : List (List Text)} : Contiguous ps ↔ ps.Triplewise Between := by
  rw [List.triplewise_iff_getElem]
  exact ⟨fun h i j k hij hjk hk q => h q i j k hij hjk hk,
    fun h q i j k hij hjk hk => h i j k hij hjk hk q⟩

lemma shorterFirst_iff {ps : List (List Text)} : ShorterFirst ps ↔ ps.Pairwise MayPrecede := by
  rw [List.pairwise_iff_getElem]
  exact ⟨fun h i j _ hj hij => h i j hij hj, fun h i j hij hj => h i j _ hj hij⟩

lemma triplewise_of_sublist {α : Type*} {p : α → α → α → Prop} {l l' : List α} (h : l.Sublist l')
    (hl : l'.Triplewise p) : l.Triplewise p := by
  induction h with
  | slnil => exact .nil
  | cons a _ ih => exact ih (List.triplewise_cons.mp hl).2
  | cons_cons a h ih =>
    obtain ⟨ha, ht⟩ := List.triplewise_cons.mp hl
    exact .cons (ha.sublist h) (ih ht)

/-- A path that two others have in common ends where they part. -/
lemma isPrefix_of_diverging {above p r q : List Text} {a b : Text} (hab : a ≠ b)
    (hp : q <+: above ++ a :: p) (hr : q <+: above ++ b :: r) : q <+: above := by
  induction above generalizing q with
  | nil =>
    cases q with
    | nil => exact List.prefix_refl _
    | cons x q =>
      obtain ⟨rfl, -⟩ := List.cons_prefix_cons.mp hp
      exact absurd (List.cons_prefix_cons.mp hr).1 hab
  | cons y above ih =>
    cases q with
    | nil => exact List.nil_prefix
    | cons x q =>
      obtain ⟨rfl, hq⟩ := List.cons_prefix_cons.mp hp
      exact List.cons_prefix_cons.mpr ⟨rfl, ih hq (List.cons_prefix_cons.mp hr).2⟩

/-! ### What a walk lists -/

namespace Forest

/-- The declarations of a walk of nodes that lie under `above`. -/
def listed (above : List Text) : Forest → List (List Text × Declaration)
  | nil => []
  | cons text ds below next =>
    declaredAt (above ++ [text]) ds ++ below.listed (above ++ [text]) ++ next.listed above

lemma listed_eq_visits (f : Forest) (above : List Text) :
    f.listed above = (f.visits above).flatMap fun v => declaredAt v.path v.node.declarations := by
  induction f generalizing above with
  | nil => rfl
  | cons text ds below next ihb ihn => simp [listed, visits, ihb, ihn]

end Forest

lemma Tree.inWalkOrder_eq_listed (t : Tree) : t.inWalkOrder = t.children.listed [] := by
  rw [inWalkOrder, Tree.withPaths_walk, Forest.listed_eq_visits, List.flatMap_map]
  rfl

lemma path_of_mem_listed {f : Forest} {above : List Text} {x : List Text × Declaration}
    (hx : x ∈ f.listed above) : ∃ text ∈ f.texts, ∃ p, x.1 = above ++ text :: p := by
  rw [Forest.listed_eq_visits] at hx
  obtain ⟨v, hv, hx⟩ := List.mem_flatMap.mp hx
  obtain ⟨d, -, rfl⟩ := List.mem_map.mp hx
  exact Forest.path_of_mem_visits hv

lemma path_of_mem_declaredAt {path : List Text} {ds : List Declaration}
    {x : List Text × Declaration} (hx : x ∈ declaredAt path ds) : x.1 = path := by
  obtain ⟨d, -, rfl⟩ := List.mem_map.mp hx
  rfl

/-- Under one child everything has the child's path for a beginning, and nothing else has. -/
lemma path_of_mem_block {below : Forest} {above : List Text} {text : Text}
    {ds : List Declaration} {x : List Text × Declaration}
    (hx : x ∈ declaredAt (above ++ [text]) ds ++ below.listed (above ++ [text])) :
    ∃ p, x.1 = above ++ text :: p := by
  rcases List.mem_append.mp hx with hx | hx
  · exact ⟨[], path_of_mem_declaredAt hx⟩
  · obtain ⟨text', -, p, e⟩ := path_of_mem_listed hx
    exact ⟨text' :: p, by simp [e]⟩

lemma between_of_isPrefix {p m : List Text} (h : p <+: m) (r : List Text) : Between p m r :=
  fun _ hq _ => hq.trans h

/-- A walk lists together what lies under one node. -/
lemma triplewise_listed {f : Forest} (hf : f.Distinct) (above : List Text) :
    (f.listed above).Triplewise fun x y z => Between x.1 y.1 z.1 := by
  induction f generalizing above with
  | nil => exact .nil
  | cons text ds below next ihb ihn =>
    obtain ⟨ht, hb, hn⟩ := hf
    have howns : ∀ x ∈ declaredAt (above ++ [text]) ds, ∀ y ∈ declaredAt (above ++ [text]) ds ++
        below.listed (above ++ [text]), x.1 <+: y.1 := by
      intro x hx y hy
      obtain ⟨p, e⟩ := path_of_mem_block hy
      rw [path_of_mem_declaredAt hx, e]
      exact ⟨p, by simp⟩
    have hblock : (declaredAt (above ++ [text]) ds ++ below.listed (above ++ [text])).Triplewise
        fun x y z => Between x.1 y.1 z.1 := by
      refine List.triplewise_append.mpr ⟨?_, ihb hb _, fun x hx => ?_, fun z hz => ?_⟩
      · rw [List.triplewise_iff_getElem]
        intro i j k hij hjk hk
        exact between_of_isPrefix
          (howns _ (List.getElem_mem _) _ (List.mem_append_left _ (List.getElem_mem _))) _
      · refine List.pairwise_of_forall_mem_list fun y hy z _ => ?_
        exact between_of_isPrefix (howns x hx y (List.mem_append_right _ hy)) _
      · refine List.pairwise_of_forall_mem_list fun x hx y hy => ?_
        exact between_of_isPrefix (howns x hx y (List.mem_append_left _ hy)) _
    -- What the block and the nodes behind it have in common lies above both.
    have hacross : ∀ x ∈ declaredAt (above ++ [text]) ds ++ below.listed (above ++ [text]),
        ∀ z ∈ next.listed above, ∀ m : List Text, above <+: m → Between x.1 m z.1 := by
      intro x hx z hz m hm q hqx hqz
      obtain ⟨p, ex⟩ := path_of_mem_block hx
      obtain ⟨text', ht', r, ez⟩ := path_of_mem_listed hz
      rw [ex] at hqx
      rw [ez] at hqz
      have hne : text ≠ text' := fun e => ht (e ▸ ht')
      exact (isPrefix_of_diverging hne hqx hqz).trans hm
    refine List.triplewise_append.mpr ⟨hblock, ihn hn above, fun x hx => ?_, fun z hz => ?_⟩
    · refine List.pairwise_of_forall_mem_list fun y hy z hz => hacross x hx z hz y.1 ?_
      obtain ⟨text', -, p, e⟩ := path_of_mem_listed hy
      exact ⟨text' :: p, e.symm⟩
    · refine List.pairwise_of_forall_mem_list fun x hx y hy => hacross x hx z hz y.1 ?_
      obtain ⟨p, e⟩ := path_of_mem_block hy
      exact ⟨text :: p, e.symm⟩

/-- A walk lists a node before what lies under it. -/
lemma pairwise_listed {f : Forest} (hf : f.Distinct) (above : List Text) :
    (f.listed above).Pairwise fun x y => MayPrecede x.1 y.1 := by
  induction f generalizing above with
  | nil => exact .nil
  | cons text ds below next ihb ihn =>
    obtain ⟨ht, hb, hn⟩ := hf
    have howns : ∀ x ∈ declaredAt (above ++ [text]) ds, ∀ y ∈ declaredAt (above ++ [text]) ds ++
        below.listed (above ++ [text]), MayPrecede x.1 y.1 := by
      intro x hx y hy hyx
      obtain ⟨p, e⟩ := path_of_mem_block hy
      have hxy : x.1 <+: y.1 := by
        rw [path_of_mem_declaredAt hx, e]
        exact ⟨p, by simp⟩
      exact hyx.eq_of_length_le hxy.length_le
    refine List.pairwise_append.mpr ⟨List.pairwise_append.mpr ⟨?_, ihb hb _, ?_⟩, ihn hn above, ?_⟩
    · exact List.pairwise_of_forall_mem_list fun x hx y hy =>
        howns x hx y (List.mem_append_left _ hy)
    · exact fun x hx y hy => howns x hx y (List.mem_append_right _ hy)
    · intro x hx y hy hyx
      obtain ⟨p, ex⟩ := path_of_mem_block hx
      obtain ⟨text', ht', r, ey⟩ := path_of_mem_listed hy
      rw [ex, ey, List.prefix_append_right_inj] at hyx
      obtain ⟨rfl, -⟩ := List.cons_prefix_cons.mp hyx
      exact absurd ht' ht

/-! ### Adding at the end of a walk -/

/-- What is declared at the path comes last in a walk: the path leads along last children only and
ends where nothing lies below, or leaves the forest by a new child. -/
def Forest.EndsAt : Forest → List Text → Prop
  | nil, _ => True
  | cons _ _ _ _, [] => False
  | cons text _ below next, key :: p =>
    if text = key then next = nil ∧ below.EndsAt p else next.EndsAt (key :: p)

namespace Forest

variable {f : Forest} {key text : Text} {p : List Text}

lemma endsAt_of_not_mem (h : key ∉ f.texts) : f.EndsAt (key :: p) := by
  induction f with
  | nil => trivial
  | cons text ds below next _ ih =>
    simp only [texts, List.mem_cons, not_or] at h
    rw [EndsAt, if_neg (Ne.symm h.1)]
    exact ih h.2

lemma endsAt_childD (h : f.EndsAt (key :: p)) : (f.childD key).children.EndsAt p := by
  induction f with
  | nil => trivial
  | cons text ds below next _ ih =>
    by_cases hk : text = key
    · rw [EndsAt, if_pos hk] at h
      simpa [childD, get?, hk] using h.2
    · rw [EndsAt, if_neg hk] at h
      simpa [childD, get?, hk] using ih h

/-- After a change at the end, a path to the changed child ends where it does below that child. -/
lemma endsAt_update {p' : List Text} {g : Tree → Tree} (h : f.EndsAt (key :: p))
    (hg : (g (f.childD key)).children.EndsAt p') : (f.update key g).EndsAt (key :: p') := by
  induction f with
  | nil =>
    rw [update, EndsAt, if_pos rfl]
    exact ⟨rfl, hg⟩
  | cons text ds below next _ ih =>
    by_cases hk : text = key
    · rw [EndsAt, if_pos hk] at h
      rw [update, if_pos hk, EndsAt, if_pos hk]
      exact ⟨h.1, by simpa [childD, get?, hk] using hg⟩
    · rw [EndsAt, if_neg hk] at h
      rw [update, if_neg hk, EndsAt, if_neg hk]
      exact ih h (by simpa [childD, get?, hk] using hg)

lemma mem_texts_iff : key ∈ f.texts ↔ (f.get? key).isSome := by
  induction f with
  | nil => simp [texts, get?]
  | cons text ds below next _ ih =>
    by_cases hk : text = key
    · simp [texts, get?, hk]
    · simp [texts, get?, hk, Ne.symm hk, ih]

end Forest

namespace Tree

variable {t : Tree} {p : List Text} {ds : List Declaration}

/-- The declarations of a walk that begins with the node itself, which lies at `above`. -/
def listed (above : List Text) (t : Tree) : List (List Text × Declaration) :=
  declaredAt above t.declarations ++ t.children.listed above

/-- A change to the last child, or to a new one, changes the end of a walk. -/
lemma listed_update {f : Forest} {key : Text} {above : List Text} (h : f.EndsAt (key :: p))
    (ht : ∀ t : Tree, t.children.EndsAt p →
      (t.add p ds).listed (above ++ [key]) =
        t.listed (above ++ [key]) ++ declaredAt (above ++ key :: p) ds) :
    (f.update key (·.add p ds)).listed above =
      f.listed above ++ declaredAt (above ++ key :: p) ds := by
  induction f with
  | nil =>
    have := ht ⟨[], .nil⟩ trivial
    simpa [Forest.update, Forest.listed, listed, declaredAt] using this
  | cons text ds' below next _ ih =>
    by_cases hk : text = key
    · subst hk
      rw [Forest.EndsAt, if_pos rfl] at h
      obtain ⟨rfl, hb⟩ := h
      have := ht ⟨ds', below⟩ hb
      simpa [Forest.update, Forest.listed, listed] using this
    · rw [Forest.EndsAt, if_neg hk] at h
      simp [Forest.update, Forest.listed, hk, ih h]

/-- What is added at the end of a walk is listed there. -/
lemma listed_add (h : t.children.EndsAt p) (above : List Text) :
    (t.add p ds).listed above = t.listed above ++ declaredAt (above ++ p) ds := by
  induction p generalizing t above with
  | nil =>
    obtain ⟨ds', _ | _⟩ := t
    · simp [add, listed, Forest.listed, declaredAt]
    · cases h
  | cons key p ih =>
    have hbelow : ∀ c : Tree, c.children.EndsAt p →
        (c.add p ds).listed (above ++ [key]) =
          c.listed (above ++ [key]) ++ declaredAt (above ++ key :: p) ds := by
      intro c hc
      simpa using ih hc (above ++ [key])
    simp only [listed, add, listed_update h hbelow, List.append_assoc]

/-- Once `l` has been added at the end of a walk, `p` may end it next: it does not turn back on
`l`, and the nodes that are there on its way are on the way of `l`. -/
lemma endsAt_add {l : List Text} (h : t.children.EndsAt l) (hl : MayPrecede l p)
    (hp : ∀ q text, q ++ [text] <+: p → ((t.add l ds).find? (q ++ [text])).isSome →
      q ++ [text] <+: l) : (t.add l ds).children.EndsAt p := by
  induction l generalizing t p with
  | nil =>
    obtain ⟨ds', _ | _⟩ := t
    · trivial
    · cases h
  | cons key l ih =>
    cases p with
    | nil => exact absurd (hl List.nil_prefix) (by simp)
    | cons text p =>
      by_cases hk : text = key
      · subst hk
        refine Forest.endsAt_update h (ih (Forest.endsAt_childD h) (fun hpl => ?_) ?_)
        · exact (List.cons.inj (hl (List.cons_prefix_cons.mpr ⟨rfl, hpl⟩))).2
        · intro q text' hq hsome
          have := hp (text :: q) text' (List.cons_prefix_cons.mpr ⟨rfl, hq⟩)
          rw [List.cons_append, find?_cons, add, Forest.get?_update, if_pos rfl] at this
          exact (List.cons_prefix_cons.mp (this hsome)).2
      · refine Forest.endsAt_of_not_mem fun hm => hk ?_
        have hsome : ((t.add (key :: l) ds).find? ([] ++ [text])).isSome := by
          rw [List.nil_append, find?_cons]
          cases hg : (t.add (key :: l) ds).children.get? text with
          | none =>
            rw [Forest.mem_texts_iff, hg] at hm
            cases hm
          | some c => rfl
        have hkey := hp [] text (List.cons_prefix_cons.mpr ⟨rfl, List.nil_prefix⟩) hsome
        exact (List.cons_prefix_cons.mp hkey).1

lemma addAll_snoc (t : Tree) (ps : List (List Text × List Declaration))
    (x : List Text × List Declaration) : t.addAll (ps ++ [x]) = (t.addAll ps).add x.1 x.2 := by
  simp [addAll]

variable {ps : List (List Text × List Declaration)}

/-- In a good order each path ends the walk when its turn comes. -/
lemma endsAt_addAll (hc : (ps.map Prod.fst ++ [p]).Triplewise Between)
    (hs : (ps.map Prod.fst ++ [p]).Pairwise MayPrecede) :
    (empty.addAll ps).children.EndsAt p := by
  induction ps using List.reverseRecOn generalizing p with
  | nil => trivial
  | append_singleton ps x ih =>
    obtain ⟨hc', -, -, hthird⟩ := List.triplewise_append.mp hc
    obtain ⟨hs', -, hlast⟩ := List.pairwise_append.mp hs
    rw [List.map_append] at hc' hs' hlast hthird
    rw [addAll_snoc]
    refine endsAt_add (ih hc' hs') (hlast x.1 (by simp) p (by simp)) fun q text hq hsome => ?_
    rw [← addAll_snoc, isSome_find?_addAll, isSome_find?_empty] at hsome
    obtain ⟨y, hy, hqy⟩ := hsome.resolve_left (by simp)
    rcases List.mem_append.mp hy with hy | hy
    · -- An earlier chain has been there, so the last one has gone there too.
      have hpair := hthird p (by simp)
      have hlast := (List.pairwise_append.mp hpair).2.2
      exact hlast y.1 (List.mem_map_of_mem hy) x.1 (by simp) _ hqy hq
    · rwa [List.mem_singleton.mp hy] at hqy

/-- In a good order a walk lists the declarations as they were added. -/
lemma listed_addAll (hc : (ps.map Prod.fst).Triplewise Between)
    (hs : (ps.map Prod.fst).Pairwise MayPrecede) :
    (empty.addAll ps).listed [] = ps.flatMap fun x => declaredAt x.1 x.2 := by
  induction ps using List.reverseRecOn with
  | nil => rfl
  | append_singleton ps x ih =>
    rw [List.map_append, List.map_singleton] at hc hs
    have hend := endsAt_addAll hc hs
    have := ih (List.triplewise_append.mp hc).1 (List.pairwise_append.mp hs).1
    rw [addAll_snoc, listed_add hend, this]
    simp

end Tree

/-! ### The order of the rules -/

lemma sublist_paths {ps : List (List Text × List Declaration)} (h : ∀ x ∈ ps, x.2 ≠ []) :
    (ps.map Prod.fst).Sublist ((ps.flatMap fun x => declaredAt x.1 x.2).map Prod.fst) := by
  induction ps with
  | nil => exact .slnil
  | cons x ps ih =>
    obtain ⟨p, ds⟩ := x
    obtain ⟨d, ds, rfl⟩ := List.exists_cons_of_ne_nil (h (p, ds) (by simp))
    have hhead : [p].Sublist ((declaredAt p (d :: ds)).map Prod.fst) := by
      simp [declaredAt]
    rw [List.flatMap_cons, List.map_append]
    exact hhead.append (ih fun y hy => h y (by simp [hy]))

lemma chainPaths_eq (rules : List Rule) :
    chainPaths rules = (rules.flatMap Rule.placements).map Prod.fst := by
  simp [chainPaths, Rule.placements, List.map_flatMap, Function.comp_def]

lemma inSourceOrder_eq (rules : List Rule) :
    inSourceOrder rules =
      (rules.flatMap Rule.placements).flatMap fun x => declaredAt x.1 x.2 := by
  simp [inSourceOrder, Rule.placements, List.flatMap_assoc, List.flatMap_map]

/-- **A tree keeps its declarations in the order of the rules exactly when the chains through any
one node stand together and no chain comes behind one that goes on from it.** -/
theorem inSourceOrder_eq_inWalkOrder_iff {rules : List Rule}
    (hd : ∀ r ∈ rules, r.declarations ≠ [])
    (hc : ∀ r ∈ rules, ∀ chain ∈ r.selectors, chain ≠ []) :
    inSourceOrder rules = (Tree.ofRules rules).inWalkOrder ↔
      Contiguous (chainPaths rules) ∧ ShorterFirst (chainPaths rules) := by
  have hwalk : (Tree.ofRules rules).inWalkOrder = (Tree.ofRules rules).listed [] := by
    rw [Tree.inWalkOrder_eq_listed, Tree.listed, Tree.declarations_ofRules hc]
    rfl
  rw [contiguous_iff, shorterFirst_iff]
  constructor
  · intro h
    have hsub : (chainPaths rules).Sublist ((inSourceOrder rules).map Prod.fst) := by
      rw [chainPaths_eq, inSourceOrder_eq]
      refine sublist_paths fun x hx => ?_
      obtain ⟨r, hr, hx⟩ := List.mem_flatMap.mp hx
      obtain ⟨chain, -, rfl⟩ := List.mem_map.mp hx
      exact hd r hr
    rw [h, Tree.inWalkOrder_eq_listed] at hsub
    have ht : (Tree.ofRules rules).children.Distinct := Tree.distinct_ofRules rules
    exact ⟨triplewise_of_sublist hsub (List.triplewise_map.mpr (triplewise_listed ht [])),
      .sublist hsub (List.pairwise_map.mpr (pairwise_listed ht []))⟩
  · rintro ⟨ht, hp⟩
    rw [chainPaths_eq] at ht hp
    rw [hwalk, Tree.ofRules_eq_addAll, Tree.listed_addAll ht hp, inSourceOrder_eq]

/-- A chain that goes on from the one before it keeps the order, and one that comes back behind
another chain does not. -/
theorem inSourceOrder_ne_inWalkOrder_of_return :
    let a : Component := ⟨['a'], .tag, by simp⟩
    let b : Component := ⟨[' ', 'b'], .tag, by simp⟩
    let x : Declaration := ⟨['x'], ['1']⟩
    let onward : List Rule := [⟨[[a], [a, b]], [x]⟩, ⟨[[b]], [x]⟩]
    let back : List Rule := [⟨[[a], [b]], [x]⟩, ⟨[[a, b]], [x]⟩]
    ((∀ r ∈ onward, r.declarations ≠ []) ∧ (∀ r ∈ onward, ∀ chain ∈ r.selectors, chain ≠ []) ∧
        Contiguous (chainPaths onward) ∧ ShorterFirst (chainPaths onward)) ∧
      (∀ r ∈ back, r.declarations ≠ []) ∧ (∀ r ∈ back, ∀ chain ∈ r.selectors, chain ≠ []) ∧
        inSourceOrder back ≠ (Tree.ofRules back).inWalkOrder := by
  intro a b x onward back
  have hd : ∀ r ∈ onward, r.declarations ≠ [] := by decide
  have hc : ∀ r ∈ onward, ∀ chain ∈ r.selectors, chain ≠ [] := by decide
  have hd' : ∀ r ∈ back, r.declarations ≠ [] := by decide
  have hc' : ∀ r ∈ back, ∀ chain ∈ r.selectors, chain ≠ [] := by decide
  refine ⟨⟨hd, hc, (inSourceOrder_eq_inWalkOrder_iff hd hc).mp rfl⟩, hd', hc', fun e => ?_⟩
  have h := ((inSourceOrder_eq_inWalkOrder_iff hd' hc').mp e).1
  have hmiddle : [['a']] <+: (chainPaths back)[1] :=
    h [['a']] 0 1 2 (by decide) (by decide) (by decide) (by decide) (by decide)
  revert hmiddle
  decide

end StyleNest
