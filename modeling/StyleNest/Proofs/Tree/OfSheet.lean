import StyleNest.Proofs.Sheet.Written
import StyleNest.Proofs.Tree.Walk

/-!
The nodes of a tree that is made from a sheet.

Each of them lies at the path of a chain that the sheet's grammar allows, being on the way of a
chain of the sheet, and declares what rules of the sheet declare. The root declares nothing.
-/

namespace StyleNest

open Selector Sheet

lemma Selector.Chain.flatten_path (chain : Chain) : chain.path.flatten = chain.text := by
  rw [Chain.path, Chain.text, List.flatMap_def]

/-- The beginning of a chain's path is the path of a chain. -/
lemma Sheet.IsPlainChain.exists_of_isPrefix {chain : Chain} {p : List Text}
    (h : IsPlainChain chain) (hp : p <+: chain.path) (hne : p ≠ []) :
    ∃ cs, IsPlainChain cs ∧ cs.path = p := by
  have e : chain.path.take p.length = p := (List.prefix_iff_eq_take.mp hp).symm
  have hpath : Chain.path (chain.take p.length) = p := by
    rw [← e]
    simp [Chain.path, List.map_take]
  rw [← List.take_append_drop p.length chain] at h
  refine ⟨chain.take p.length, h.of_append fun hnil => hne ?_, hpath⟩
  rw [hnil] at hpath
  exact hpath.symm

namespace Tree

/-- A node as the tree of a sheet can hold it. -/
structure Visit.Plain (v : Visit) : Prop where
  chain : ∃ chain, IsPlainChain chain ∧ chain.path = v.path
  declarations : ∀ d ∈ v.node.declarations, d.Plain

variable {rules : List Rule} {v : Visit}

/-- A node lies on the way of a chain. -/
lemma exists_chain_of_mem_visits (hv : v ∈ (ofRules rules).visits) :
    v.path ≠ [] ∧ ∃ r ∈ rules, ∃ chain ∈ r.selectors, v.path <+: chain.path := by
  obtain ⟨hne, hf⟩ := (mem_visits (distinct_ofRules rules) v).mp hv
  have hsome : ((ofRules rules).find? v.path).isSome := by rw [hf]; rfl
  exact ⟨hne, ((isSome_find?_ofRules rules v.path).mp hsome).resolve_left hne⟩

/-- The texts that a walk meets are those of the components. -/
lemma exists_mem_walk_iff {text : Text} :
    (∃ e ∈ (ofRules rules).walk, e.text = text) ↔
      ∃ r ∈ rules, ∃ chain ∈ r.selectors, ∃ c ∈ chain, c.text = text := by
  rw [walk_eq_visits]
  constructor
  · rintro ⟨e, he, rfl⟩
    obtain ⟨v, hv, rfl⟩ := List.mem_map.mp he
    obtain ⟨hne, r, hr, chain, hc, hp⟩ := exists_chain_of_mem_visits hv
    obtain ⟨c, hm, e⟩ := List.mem_map.mp (hp.subset (v.text_mem_path hne))
    exact ⟨r, hr, chain, hc, c, hm, e⟩
  · rintro ⟨r, hr, chain, hc, c, hm, rfl⟩
    obtain ⟨before, after, e⟩ := List.append_of_mem hm
    let path := Chain.path before ++ [c.text]
    have hp : path <+: chain.path := ⟨Chain.path after, by simp [path, e, Chain.path]⟩
    have hsome := (isSome_find?_ofRules rules path).mpr (.inr ⟨r, hr, chain, hc, hp⟩)
    obtain ⟨node, hnode⟩ := Option.isSome_iff_exists.mp hsome
    have hv : ⟨path, node⟩ ∈ (ofRules rules).visits :=
      (mem_visits (distinct_ofRules rules) _).mpr ⟨by simp [path], hnode⟩
    exact ⟨_, List.mem_map_of_mem hv, by simp [Visit.entry, path]⟩

lemma exists_rule_of_mem_declarations (hv : v ∈ (ofRules rules).visits) {d : Declaration}
    (hd : d ∈ v.node.declarations) : ∃ r ∈ rules, d ∈ r.declarations := by
  obtain ⟨-, hf⟩ := (mem_visits (distinct_ofRules rules) v).mp hv
  rw [← declared_of_find? hf, declared_ofRules] at hd
  obtain ⟨r, hr, hd⟩ := List.mem_flatMap.mp hd
  obtain ⟨chain, -, hd⟩ := List.mem_flatMap.mp hd
  split at hd
  · exact ⟨r, hr, hd⟩
  · cases hd

lemma plain_of_mem_visits (hr : ∀ r ∈ rules, r.Plain) (hv : v ∈ (ofRules rules).visits) :
    v.Plain := by
  obtain ⟨hne, r, hm, chain, hc, hp⟩ := exists_chain_of_mem_visits hv
  refine ⟨((hr r hm).chains chain hc).exists_of_isPrefix hp hne, fun d hd => ?_⟩
  obtain ⟨r, hm, hd⟩ := exists_rule_of_mem_declarations hv hd
  exact (hr r hm).declarations d hd

lemma declarations_ofRules_of_plain (hr : ∀ r ∈ rules, r.Plain) :
    (ofRules rules).declarations = [] :=
  declarations_ofRules fun r h chain hc => ((hr r h).chains chain hc).ne_nil

end Tree
end StyleNest
