import Mathlib.Data.List.Forall2
import StyleNest.Proofs.Tree.Order

/-!
The order of a walk through a tree of rules.

The children of a node stand in the order in which chains first went to them, since a chain that
comes back to a child leaves it in its place and one that goes to a new child puts it last. So of
two nodes that part below a third the walk meets first the one to whose side a chain went first, and
the rows of a walk, which show depths and texts only, still tell the way to each node.
-/

namespace StyleNest

open Selector Sheet

/-! ### The children of a node as the tree grows -/

namespace Tree

variable {t : Tree} {p q r s : List Text} {ds : List Declaration} {text : Text}

lemma find?_append (q : List Text) : t.find? (p ++ q) = (t.find? p).bind (·.find? q) := by
  induction p generalizing t with
  | nil => rfl
  | cons text p ih => cases h : t.children.get? text <;> simp [find?_cons, h, ih]

lemma mem_texts_nodeD : text ∈ (t.nodeD r).children.texts ↔ (t.find? (r ++ [text])).isSome := by
  rw [find?_append, nodeD]
  cases t.find? r with
  | none => simp [empty, Forest.texts]
  | some node =>
    rw [Option.getD_some, Forest.mem_texts_iff, Option.bind_some, find?_cons]
    cases node.children.get? text <;> simp

/-- A node that the path does not go on from keeps its children. -/
lemma texts_nodeD_add_of_forall_ne (h : ∀ text s, p ≠ r ++ text :: s) :
    ((t.add p ds).nodeD r).children.texts = (t.nodeD r).children.texts := by
  by_cases hr : r <+: p
  · obtain ⟨s, rfl⟩ := hr
    cases s with
    | nil =>
      have hnode : (t.add (r ++ []) ds).nodeD r = (t.nodeD r).add [] ds := by
        rw [nodeD, find?_add_append, Option.getD_some]
      rw [hnode]
      rfl
    | cons text s => exact absurd rfl (h text s)
  · rw [nodeD, nodeD, find?_add_of_not_isPrefix hr]

/-- A node on the way gets the next text for its last child, unless it has such a child. -/
lemma texts_nodeD_add_append :
    ((t.add (r ++ text :: s) ds).nodeD r).children.texts =
      if text ∈ (t.nodeD r).children.texts then (t.nodeD r).children.texts
      else (t.nodeD r).children.texts ++ [text] := by
  have hnode : (t.add (r ++ text :: s) ds).nodeD r = (t.nodeD r).add (text :: s) ds := by
    rw [nodeD, find?_add_append, Option.getD_some]
  rw [hnode, add, Forest.texts_update]

end Tree

/-! ### First chains -/

/-- The place of the first chain that goes through a path, the number of chains if none does. -/
def Sheet.firstThrough (chains : List (List Text)) (p : List Text) : Nat :=
  chains.findIdx fun chain => decide (p <+: chain)

section FirstThrough

variable {chains : List (List Text)} {p : List Text}

lemma firstThrough_lt_iff : firstThrough chains p < chains.length ↔ ∃ c ∈ chains, p <+: c := by
  simp [firstThrough, List.findIdx_lt_length]

lemma firstThrough_append_of_lt (h : firstThrough chains p < chains.length)
    (more : List (List Text)) : firstThrough (chains ++ more) p = firstThrough chains p := by
  rw [firstThrough, List.findIdx_append]
  exact if_pos h

lemma firstThrough_snoc_of_not_lt {chain : List Text} (hp : p <+: chain)
    (h : ¬ firstThrough chains p < chains.length) :
    firstThrough (chains ++ [chain]) p = chains.length := by
  rw [firstThrough, List.findIdx_append]
  simp only [firstThrough] at h
  simp [h, hp]

end FirstThrough

/-- The children of the node at `r` stand in the order of what is said of the ways to them. -/
def Increasing (first : List Text → Nat) (r : List Text) (texts : List Text) : Prop :=
  texts.Pairwise fun a b => first (r ++ [a]) < first (r ++ [b])

namespace Tree

variable {ps : List (List Text × List Declaration)} {r : List Text} {text : Text}

lemma mem_texts_addAll : text ∈ ((empty.addAll ps).nodeD r).children.texts ↔
    firstThrough (ps.map Prod.fst) (r ++ [text]) < (ps.map Prod.fst).length := by
  rw [mem_texts_nodeD, isSome_find?_addAll, isSome_find?_empty, firstThrough_lt_iff]
  simp

/-- Children stand in the order of the first chains that go to them. -/
lemma increasing_addAll (ps : List (List Text × List Declaration)) (r : List Text) :
    Increasing (firstThrough (ps.map Prod.fst)) r ((empty.addAll ps).nodeD r).children.texts := by
  induction ps using List.reverseRecOn with
  | nil =>
    rw [addAll, List.foldl_nil, nodeD_empty]
    exact List.Pairwise.nil
  | append_singleton ps x ih =>
    obtain ⟨p, ds⟩ := x
    rw [addAll_snoc, List.map_append, List.map_singleton]
    have hold : Increasing (firstThrough (ps.map Prod.fst ++ [p])) r
        ((empty.addAll ps).nodeD r).children.texts := by
      refine ih.imp_of_mem fun {a b} ha hb hab => ?_
      rw [firstThrough_append_of_lt (mem_texts_addAll.mp ha),
        firstThrough_append_of_lt (mem_texts_addAll.mp hb)]
      exact hab
    by_cases h : ∃ text s, p = r ++ text :: s
    · obtain ⟨text, s, rfl⟩ := h
      rw [texts_nodeD_add_append]
      split
      · exact hold
      · next hnew =>
        -- The new child comes behind children that earlier chains have gone to.
        refine List.pairwise_append.mpr ⟨hold, List.pairwise_singleton _ _, fun a ha b hb => ?_⟩
        have hlast : firstThrough (ps.map Prod.fst ++ [r ++ text :: s]) (r ++ [text]) =
            (ps.map Prod.fst).length :=
          firstThrough_snoc_of_not_lt ⟨s, by simp⟩ (mem_texts_addAll.not.mp hnew)
        rw [List.mem_singleton.mp hb, hlast, firstThrough_append_of_lt (mem_texts_addAll.mp ha)]
        exact mem_texts_addAll.mp ha
    · push Not at h
      rw [texts_nodeD_add_of_forall_ne h]
      exact hold

lemma increasing_ofRules (rules : List Rule) (r : List Text) :
    Increasing (firstThrough (chainPaths rules)) r ((ofRules rules).nodeD r).children.texts := by
  rw [chainPaths_eq, ofRules_eq_addAll]
  exact increasing_addAll _ r

end Tree

/-! ### The order of a walk -/

/-- Which of two nodes a walk meets first: the one that lies above the other, and where they part
the one to whose side `first` gives the smaller place. -/
def WalksBefore (first : List Text → Nat) (p q : List Text) : Prop :=
  (p <+: q ∧ p ≠ q) ∨ ∃ r a b p' q', a ≠ b ∧ p = r ++ a :: p' ∧ q = r ++ b :: q' ∧
    first (r ++ [a]) < first (r ++ [b])

section WalksBefore

variable {first : List Text → Nat} {p q : List Text}

/-- Paths part at one place. -/
lemma parting_unique {r r' p p' q q' : List Text} {a a' b b' : Text} (hab : a ≠ b) (hab' : a' ≠ b')
    (hp : r ++ a :: p = r' ++ a' :: p') (hq : r ++ b :: q = r' ++ b' :: q') :
    r = r' ∧ a = a' ∧ b = b' := by
  have hle : r <+: r' :=
    isPrefix_of_diverging hab' (hp ▸ List.prefix_append _ _) (hq ▸ List.prefix_append _ _)
  have hge : r' <+: r :=
    isPrefix_of_diverging hab (hp.symm ▸ List.prefix_append _ _) (hq.symm ▸ List.prefix_append _ _)
  obtain rfl := hle.eq_of_length_le hge.length_le
  have ha := List.append_cancel_left hp
  have hb := List.append_cancel_left hq
  exact ⟨rfl, (List.cons.inj ha).1, (List.cons.inj hb).1⟩

lemma not_isPrefix_of_parting {r p q : List Text} {a b : Text} (hab : a ≠ b) :
    ¬ r ++ a :: p <+: r ++ b :: q := by
  rw [List.prefix_append_right_inj, List.cons_prefix_cons]
  exact fun h => hab h.1

lemma WalksBefore.ne (h : WalksBefore first p q) : p ≠ q := by
  rcases h with ⟨-, hne⟩ | ⟨r, a, b, p', q', hab, rfl, rfl, -⟩
  · exact hne
  · intro e
    exact hab (List.cons.inj (List.append_cancel_left e)).1

lemma WalksBefore.asymm (h : WalksBefore first p q) : ¬ WalksBefore first q p := by
  intro h'
  rcases h with ⟨hpq, hne⟩ | ⟨r, a, b, p', q', hab, rfl, rfl, hlt⟩
  · rcases h' with ⟨hqp, -⟩ | ⟨r, a, b, p', q', hab, rfl, rfl, -⟩
    · exact hne (hpq.eq_of_length_le hqp.length_le)
    · exact not_isPrefix_of_parting hab.symm hpq
  · rcases h' with ⟨hqp, -⟩ | ⟨r', b', a', q'', p'', hab', hq, hp, hlt'⟩
    · exact not_isPrefix_of_parting hab.symm hqp
    · obtain ⟨rfl, rfl, rfl⟩ := parting_unique hab hab'.symm hp hq
      omega

end WalksBefore

/-- Where all children stand in order, so do all nodes. -/
lemma Forest.pairwise_visits {first : List Text → Nat} {f : Forest} {above : List Text}
    (hf : Increasing first above f.texts)
    (hv : ∀ v ∈ f.visits above, Increasing first v.path v.node.children.texts) :
    ((f.visits above).map Tree.Visit.path).Pairwise (WalksBefore first) := by
  induction f generalizing above with
  | nil => exact .nil
  | cons text ds below next ihb ihn =>
    obtain ⟨hfirst, hnext⟩ := List.pairwise_cons.mp hf
    simp only [visits, List.cons_append, List.mem_cons, List.mem_append] at hv
    have hbelow : Increasing first (above ++ [text]) below.texts := hv _ (.inl rfl)
    -- Whatever lies at or below this node comes before what lies at or below a later one.
    have hacross : ∀ p, ∀ w ∈ next.visits above, WalksBefore first (above ++ text :: p) w.path := by
      intro p w hw
      obtain ⟨text', ht, q, e⟩ := path_of_mem_visits hw
      have hlt := hfirst text' ht
      have hne : text ≠ text' := by
        rintro rfl
        exact Nat.lt_irrefl _ hlt
      exact .inr ⟨above, text, text', p, q, hne, rfl, e, hlt⟩
    rw [visits, List.cons_append, List.map_cons, List.map_append, List.pairwise_cons,
      List.pairwise_append]
    refine ⟨fun q hq => ?_, ihb hbelow fun v h => hv v (.inr (.inl h)),
      ihn hnext fun v h => hv v (.inr (.inr h)), fun p hp q hq => ?_⟩
    · rcases List.mem_append.mp hq with hq | hq
      · obtain ⟨w, hw, rfl⟩ := List.mem_map.mp hq
        obtain ⟨text', -, s, e⟩ := path_of_mem_visits hw
        refine .inl ⟨⟨text' :: s, e.symm⟩, ?_⟩
        rw [e]
        simp
      · obtain ⟨w, hw, rfl⟩ := List.mem_map.mp hq
        exact hacross [] w hw
    · obtain ⟨v, hv, rfl⟩ := List.mem_map.mp hp
      obtain ⟨w, hw, rfl⟩ := List.mem_map.mp hq
      obtain ⟨text', -, s, e⟩ := path_of_mem_visits hv
      have := hacross (text' :: s) w hw
      simpa [e] using this

/-- The paths at which a walk meets the nodes, in its order. -/
def Tree.paths (t : Tree) : List (List Text) := t.visits.map Visit.path

namespace Tree

lemma pairwise_paths (rules : List Rule) :
    (ofRules rules).paths.Pairwise (WalksBefore (firstThrough (chainPaths rules))) := by
  refine Forest.pairwise_visits (increasing_ofRules rules []) fun v hv => ?_
  have h := increasing_ofRules rules v.path
  rwa [nodeD, ((mem_visits (distinct_ofRules rules) v).mp hv).2] at h

lemma nodup_paths (rules : List Rule) : (ofRules rules).paths.Nodup :=
  nodup_visits (distinct_ofRules rules)

lemma mem_paths (rules : List Rule) (p : List Text) :
    p ∈ (ofRules rules).paths ↔ p ≠ [] ∧ ∃ chain ∈ chainPaths rules, p <+: chain := by
  have hfind : ((ofRules rules).find? p).isSome ↔
      p = [] ∨ ∃ chain ∈ chainPaths rules, p <+: chain := by
    rw [isSome_find?_ofRules]
    simp [chainPaths, and_assoc]
  constructor
  · intro hp
    obtain ⟨v, hv, rfl⟩ := List.mem_map.mp hp
    obtain ⟨hne, hnode⟩ := (mem_visits (distinct_ofRules rules) v).mp hv
    exact ⟨hne, (hfind.mp (by rw [hnode]; rfl)).resolve_left hne⟩
  · rintro ⟨hne, hchain⟩
    obtain ⟨node, hnode⟩ := Option.isSome_iff_exists.mp (hfind.mpr (.inr hchain))
    have hv : ⟨p, node⟩ ∈ (ofRules rules).visits :=
      (mem_visits (distinct_ofRules rules) _).mpr ⟨hne, hnode⟩
    exact List.mem_map.mpr ⟨_, hv, rfl⟩

end Tree

/-- In a list that an asymmetric relation orders, the relation says what comes first. -/
lemma idxOf_lt_idxOf_iff {α : Type*} [BEq α] [LawfulBEq α] {R : α → α → Prop} {l : List α}
    (hR : ∀ a b, R a b → a ≠ b ∧ ¬ R b a) (hl : l.Pairwise R) {a b : α} (ha : a ∈ l) (hb : b ∈ l) :
    l.idxOf a < l.idxOf b ↔ R a b := by
  have hi := List.idxOf_lt_length_of_mem ha
  have hj := List.idxOf_lt_length_of_mem hb
  have hpair := List.pairwise_iff_getElem.mp hl
  constructor
  · intro h
    simpa using hpair _ _ hi hj h
  · intro h
    rcases Nat.lt_trichotomy (l.idxOf a) (l.idxOf b) with hlt | he | hgt
    · exact hlt
    · exact absurd ((List.idxOf_inj ha).mp he) (hR a b h).1
    · have hba := hpair _ _ hj hi hgt
      rw [List.getElem_idxOf, List.getElem_idxOf] at hba
      exact absurd hba (hR a b h).2

/-! ### Entries and rows -/

lemma Forest.forall₂_walk (f : Forest) (above : List Text) (depth : Nat) :
    List.Forall₂ (fun v e => e.depth + 1 = depth + v.path.length ∧
        v.path.getLast? = some e.text ∧ e.node = v.node)
      (f.visits above) (f.walk (depth + above.length)) := by
  induction f generalizing above with
  | nil => exact .nil
  | cons text ds below next ihb ihn =>
    have hb := ihb (above ++ [text])
    rw [List.length_append, List.length_singleton, ← Nat.add_assoc] at hb
    refine List.Forall₂.cons ⟨?_, by simp, rfl⟩ (List.rel_append hb (ihn above))
    simp only [List.length_append, List.length_singleton]
    omega

namespace Tree

/-- A walk has an entry for each path, with the depth, the last text and the node of the path. -/
lemma forall₂_walk {t : Tree} (ht : t.Distinct) (depth : Nat) :
    List.Forall₂ (fun p e => e.depth + 1 = depth + p.length ∧ p.getLast? = some e.text ∧
        t.find? p = some e.node)
      t.paths (t.children.walk depth) := by
  have hfind : ∀ v ∈ t.visits, t.find? v.path = some v.node :=
    fun v hv => ((mem_visits ht v).mp hv).2
  rw [paths, List.forall₂_map_left_iff]
  refine ((List.forall₂_and_left _ _).mpr ⟨hfind, t.children.forall₂_walk [] depth⟩).imp ?_
  rintro v e ⟨hv, hd, htext, hnode⟩
  exact ⟨hd, htext, by rw [hv, hnode]⟩

lemma forall₂_outline {t : Tree} (ht : t.Distinct) (start : Int) :
    List.Forall₂ (fun p row => row.depth = start + p.length - 1 ∧ p.getLast? = some row.text ∧
        ∃ node, t.find? p = some node ∧ row.declarations = node.declarations.length)
      t.paths (t.outline start) := by
  rw [outline, List.forall₂_map_right_iff]
  refine (forall₂_walk ht 0).imp ?_
  rintro p e ⟨hd, htext, hnode⟩
  exact ⟨by simp only; omega, htext, e.node, hnode, rfl⟩

end Tree

/-! ### The way to a row -/

/-- The text of the latest row of a depth. -/
def latest? (rows : List (Int × Text)) (depth : Int) : Option Text :=
  (rows.reverse.find? (·.1 = depth)).map Prod.snd

/-- The way to a row behind others: the latest of them at each depth from `start` on that is
smaller than its own, then the row itself. -/
def wayBehind (start : Int) (rows : List (Int × Text)) (row : Int × Text) : List Text :=
  (List.range (row.1 - start).toNat).filterMap (fun j : Nat => latest? rows (start + j)) ++ [row.2]

/-- The way to the row at `i`, the first row having the smallest depth. -/
def wayTo? (rows : List (Int × Text)) (i : Nat) : Option (List Text) :=
  rows.head?.bind fun first => rows[i]?.map (wayBehind first.1 (rows.take i))

lemma latest?_snoc (rows : List (Int × Text)) (row : Int × Text) (depth : Int) :
    latest? (rows ++ [row]) depth = if row.1 = depth then some row.2 else latest? rows depth := by
  by_cases h : row.1 = depth <;> simp [latest?, h]

lemma filterMap_range_getElem? {α : Type*} (l : List α) (n : Nat) :
    (List.range n).filterMap (fun j => l[j]?) = l.take n := by
  induction n with
  | zero => rfl
  | succ n ih =>
    rw [List.range_succ, List.filterMap_append, ih, List.take_add_one]
    cases h : l[n]? <;> simp [h]

/-- The latest rows show the way to the last of them. -/
def Shows (start : Int) (rows : List (Int × Text)) (way : List Text) : Prop :=
  ∀ j < way.length, latest? rows (start + j) = way[j]?

section Shows

variable {start : Int} {rows : List (Int × Text)} {way : List Text} {depth : Nat} {text : Text}

lemma Shows.wayBehind (h : Shows start rows way) (hd : depth ≤ way.length) :
    wayBehind start rows (start + depth, text) = way.take depth ++ [text] := by
  have hdepth : (start + depth - start).toNat = depth := by omega
  rw [StyleNest.wayBehind, hdepth, ← filterMap_range_getElem?]
  congr 1
  refine List.filterMap_congr fun j hj => h j ?_
  have := List.mem_range.mp hj
  omega

/-- A row shows the way to itself. -/
lemma Shows.snoc (h : Shows start rows way) (hd : depth ≤ way.length) :
    Shows start (rows ++ [(start + depth, text)]) (way.take depth ++ [text]) := by
  intro j hj
  rw [List.length_append, List.length_take, List.length_singleton] at hj
  rw [latest?_snoc]
  rcases Nat.lt_or_eq_of_le (show j ≤ depth by omega) with hlt | rfl
  · have hne : ¬ start + (depth : Int) = start + j := by omega
    rw [if_neg hne, h j (by omega)]
    have hjt : j < (way.take depth).length := by
      rw [List.length_take]
      omega
    rw [List.getElem?_append_left hjt, List.getElem?_take_of_lt hlt]
  · have hlen : (way.take j).length = j := by
      rw [List.length_take]
      omega
    rw [if_pos rfl]
    simp [hlen]

end Shows

/-- What an entry of a walk shows of itself. -/
def Tree.Entry.row (start : Int) (e : Tree.Entry) : Int × Text := (start + e.depth, e.text)

lemma Tree.wayBehind_withPaths {start : Int} {rows : List (Int × Text)} {above : List Text}
    {es : List Entry} (h : Shows start rows above)
    (hl : ∀ x ∈ withPaths above es, x.1.length = x.2.depth + 1) {i : Nat}
    {x : List Text × Entry} (hx : (withPaths above es)[i]? = some x) :
    es[i]? = some x.2 ∧
      wayBehind start (rows ++ (es.take i).map (Entry.row start)) (x.2.row start) = x.1 := by
  induction es generalizing rows above i with
  | nil => cases hx
  | cons e es ih =>
    rw [withPaths] at hl hx
    have hd : e.depth ≤ above.length := by
      have hlen : (above.take e.depth ++ [e.text]).length = e.depth + 1 := hl _ List.mem_cons_self
      rw [List.length_append, List.length_take, List.length_singleton] at hlen
      omega
    cases i with
    | zero =>
      cases hx
      refine ⟨rfl, ?_⟩
      rw [List.take_zero, List.map_nil, List.append_nil]
      exact h.wayBehind hd
    | succ i =>
      rw [List.getElem?_cons_succ] at hx
      obtain ⟨he, hway⟩ := ih (h.snoc hd) (fun y hy => hl y (List.mem_cons_of_mem _ hy)) hx
      refine ⟨he, ?_⟩
      rw [List.take_succ_cons, List.map_cons, ← hway, List.append_assoc]
      rfl

namespace Tree

lemma Visit.length_path {t : Tree} {v : Visit} (hv : v ∈ t.visits) :
    v.path.length = v.entry.depth + 1 := by
  obtain ⟨text, -, p, e⟩ := Forest.path_of_mem_visits hv
  simp [Visit.entry, e]

/-- The first row of a walk has the smallest depth. -/
lemma wayTo?_walk (t : Tree) (start : Int) (i : Nat) :
    wayTo? (t.walk.map (Entry.row start)) i =
      t.walk[i]?.map fun e =>
        wayBehind start ((t.walk.take i).map (Entry.row start)) (e.row start) := by
  obtain ⟨ds, _ | ⟨text, ds', below, next⟩⟩ := t
  · rfl
  · have hhead : ((walk ⟨ds, .cons text ds' below next⟩).map (Entry.row start)).head? =
        some (start, text) := by
      simp [walk, Forest.walk, Entry.row]
    rw [wayTo?, hhead, Option.bind_some, List.getElem?_map, Option.map_map, List.map_take]
    rfl

/-- The rows of a walk tell the way to each node. -/
lemma wayTo?_outline (t : Tree) (start : Int) (i : Nat) :
    wayTo? ((t.outline start).map fun row => (row.depth, row.text)) i = t.paths[i]? := by
  have hrows : ((t.outline start).map fun row => (row.depth, row.text)) =
      t.walk.map (Entry.row start) := by
    simp [outline, Function.comp_def, Entry.row]
  have hpaths : t.paths = (withPaths [] t.walk).map Prod.fst := by
    rw [withPaths_walk, List.map_map]
    rfl
  have hlen : ∀ x ∈ withPaths [] t.walk, x.1.length = x.2.depth + 1 := by
    rw [withPaths_walk]
    intro x hx
    obtain ⟨v, hv, rfl⟩ := List.mem_map.mp hx
    exact Visit.length_path hv
  have hroot : Shows start [] [] := fun j hj => absurd hj (Nat.not_lt_zero j)
  rw [hrows, hpaths, wayTo?_walk, List.getElem?_map]
  cases hx : (withPaths [] t.walk)[i]? with
  | none =>
    have hi : t.walk.length ≤ i := by
      rw [List.getElem?_eq_none_iff, withPaths_walk, List.length_map] at hx
      rwa [walk_eq_visits, List.length_map]
    rw [List.getElem?_eq_none hi]
    rfl
  | some x =>
    obtain ⟨he, hway⟩ := wayBehind_withPaths hroot hlen hx
    rw [he]
    exact congrArg some hway

/-- **A walk lists each node of the chains once, above what lies below it, and of two sides of a
node the one first that a chain went to first. Its rows tell the way to each node.** -/
theorem walk_ofRules (rules : List Rule) :
    let t := ofRules rules
    let chains := chainPaths rules
    (t.paths.Nodup ∧ ∀ p, p ∈ t.paths ↔ p ≠ [] ∧ ∃ chain ∈ chains, p <+: chain) ∧
    (∀ depth : Nat, List.Forall₂ (fun p e => e.depth + 1 = depth + p.length ∧
        p.getLast? = some e.text ∧ t.find? p = some e.node) t.paths (t.children.walk depth)) ∧
    (∀ start : Int, List.Forall₂ (fun p row => row.depth = start + p.length - 1 ∧
        p.getLast? = some row.text ∧
        ∃ node, t.find? p = some node ∧ row.declarations = node.declarations.length)
      t.paths (t.outline start)) ∧
    (∀ p ∈ t.paths, ∀ q ∈ t.paths,
      t.paths.idxOf p < t.paths.idxOf q ↔ WalksBefore (firstThrough chains) p q) ∧
    ∀ (start : Int) (i : Nat),
      wayTo? ((t.outline start).map fun row => (row.depth, row.text)) i = t.paths[i]? := by
  intro t chains
  have ht : t.Distinct := distinct_ofRules rules
  refine ⟨⟨nodup_paths rules, mem_paths rules⟩, forall₂_walk ht, forall₂_outline ht,
    fun p hp q hq => ?_, wayTo?_outline t⟩
  exact idxOf_lt_idxOf_iff (fun a b h => ⟨h.ne, h.asymm⟩) (pairwise_paths rules) hp hq

/-- A chain that comes back to a node leaves it before a node that was new in between. -/
example :
    let a : Component := ⟨['a'], .tag, by simp⟩
    let b : Component := ⟨['b'], .tag, by simp⟩
    let c : Component := ⟨[' ', 'c'], .tag, by simp⟩
    (ofRules [⟨[[a], [b]], []⟩, ⟨[[a, c]], []⟩]).paths =
      [[['a']], [['a'], [' ', 'c']], [['b']]] := rfl

end Tree
end StyleNest
