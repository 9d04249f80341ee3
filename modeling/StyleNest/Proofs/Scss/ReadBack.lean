import StyleNest.Proofs.Scss.Reading
import StyleNest.Proofs.Tree.OfSheet

/-!
The blocks that a sheet is printed as mean what its tree says.

The texts of a tree that is made from a sheet are spelled by the grammar, so none of its headers
can be taken for a declaration, and reading the printed blocks gives each node back with its path
as a selector.
-/

namespace StyleNest.Scss

open Text Selector Sheet Reader

/-! ### Components as headers -/

lemma isPropertyChar_eq_false_of_isCombinator {c : Char} (h : isCombinator c = true) :
    isPropertyChar c = false := by
  simp only [isCombinator, Bool.or_eq_true, beq_iff_eq] at h
  rcases h with (rfl | rfl) | rfl <;> rfl

lemma colon_not_mem {s : Text} (h : ∀ c ∈ s, isNameChar c = true) : ':' ∉ s := fun hm => by
  have := h ':' hm
  cases this

/-- What begins like a name is a tag, and no colon is in it. -/
lemma head_of_spells {kind : Kind} {q : Text} (h : kind.Spells q) :
    ∃ c rest, q = c :: rest ∧ isBlank c = false ∧ (isPropertyChar c = true → ':' ∉ rest) := by
  cases h with
  | @tag c s hc hs =>
    refine ⟨c, s, rfl, ?_, fun _ => colon_not_mem hs⟩
    rcases hc with hc | rfl
    · exact isBlank_eq_false_of_isNameChar hc
    · rfl
  | id => exact ⟨_, _, rfl, rfl, fun h => by cases h⟩
  | className => exact ⟨_, _, rfl, rfl, fun h => by cases h⟩
  | pseudoClass => exact ⟨_, _, rfl, rfl, fun h => by cases h⟩
  | pseudoElement => exact ⟨_, _, rfl, rfl, fun h => by cases h⟩
  | _ => exact ⟨_, _, rfl, rfl, fun h => by cases h⟩

lemma head_of_isLead {kind : Kind} {p q : Text} (hp : IsLead p) (hq : kind.Spells q) :
    ∃ c rest, trimLeft (p ++ q) = c :: rest ∧ isBlank c = false ∧
      (isPropertyChar c = true → ':' ∉ rest) := by
  induction p with
  | nil =>
    obtain ⟨c, rest, rfl, hc, hn⟩ := head_of_spells hq
    exact ⟨c, rest, trimLeft_cons_of_not_isBlank hc, hc, hn⟩
  | cons x p ih =>
    rw [List.cons_append]
    by_cases hx : isBlank x = true
    · rw [trimLeft_cons_of_isBlank hx]
      exact ih fun c hc => hp c (by simp [hc])
    · have hk : isCombinator x = true := (hp x (by simp)).resolve_left hx
      have hx : isBlank x = false := by simpa using hx
      refine ⟨x, p ++ q, trimLeft_cons_of_not_isBlank hx, hx, fun h => ?_⟩
      rw [isPropertyChar_eq_false_of_isCombinator hk] at h
      cases h

lemma isLegible_of_spelled {a : Component} (ha : a.Spelled)
    (hs : ∀ c ∈ a.text, isSelectorChar c = true) : IsLegible a.text := by
  have hne : ∀ d, isSelectorChar d = false → d ∉ a.text := fun d hd hm => by
    rw [hs d hm] at hd
    cases hd
  have hbrace : '{' ∉ a.text := hne _ rfl
  obtain ⟨p, q, e, hp, hq⟩ := ha
  obtain ⟨c, rest, et, hc, hn⟩ := head_of_isLead hp hq
  rw [← e] at et
  have hspace : isSpace c = false := by
    by_contra h
    rw [isBlank_of_isSpace (by simpa using h)] at hc
    cases hc
  have hclose : c ≠ '}' := by
    rintro rfl
    exact hne '}' rfl (mem_of_mem_trimLeft (by simp [et]))
  exact ⟨⟨⟨c, rest, et, hspace, hclose, hn⟩, fun h => hbrace (mem_of_mem_trimLeft h)⟩, hbrace,
    hne _ rfl⟩

/-! ### The nodes of a sheet's tree -/

lemma isLegible_of_mem_path {chain : Chain} (h : IsPlainChain chain) :
    ∀ text ∈ chain.path, IsLegible text := by
  intro text ht
  obtain ⟨a, ha, rfl⟩ := List.mem_map.mp ht
  refine isLegible_of_spelled (h.spelled.1 a ha) fun c hc => h.chars c ?_
  exact List.mem_flatMap.mpr ⟨a, ha, hc⟩

lemma legible_of_mem_visits {rules : List Rule} (hr : ∀ r ∈ rules, r.Plain) {v : Tree.Visit}
    (hv : v ∈ (Tree.ofRules rules).visits) : Legible v.entry := by
  obtain ⟨⟨chain, hc, e⟩, hd⟩ := Tree.plain_of_mem_visits hr hv
  have hne : v.path ≠ [] := by
    rw [← e]
    simpa [Chain.path] using hc.ne_nil
  have hlast : v.entry.text ∈ chain.path := by
    rw [e]
    exact v.text_mem_path hne
  exact ⟨isLegible_of_mem_path hc _ hlast, fun d hm => ⟨(hd d hm).name, (hd d hm).value.2.1⟩⟩

/-! ### Blocks and visits -/

/-- An inner text of a selector, with one space for the blanks before it. -/
def innerText (text : Text) : Text :=
  if trimLeft text = text then text else ' ' :: trimLeft text

/-- The selector that a path spells: its texts one after the other, without the blanks before the
first of them. -/
def pathSelector : List Text → Text
  | [] => []
  | text :: path => trimLeft text ++ path.flatMap innerText

/-- The block that stands for a node. -/
def blockOf (v : Tree.Visit) : Block := ⟨pathSelector v.path, v.node.declarations⟩

/-- The selector of the blocks around a node that lies below a path. -/
def selectorAbove (path : List Text) : Option Text :=
  if path = [] then none else some (pathSelector path)

lemma selectorBelow_selectorAbove (path : List Text) (text : Text) :
    selectorBelow (selectorAbove path) text = pathSelector (path ++ [text]) := by
  cases path with
  | nil => simp [selectorAbove, selectorBelow, pathSelector]
  | cons first path =>
    by_cases h : trimLeft text = text <;>
      simp [selectorAbove, selectorBelow, pathSelector, innerText, h]

lemma blocks_eq_visits (f : Forest) (path : List Text) :
    blocks (selectorAbove path) f = (f.visits path).map blockOf := by
  induction f generalizing path with
  | nil => rfl
  | cons text ds below next ihb ihn =>
    have e : some (pathSelector (path ++ [text])) = selectorAbove (path ++ [text]) := by
      simp [selectorAbove]
    rw [blocks, selectorBelow_selectorAbove, e, ihb, ihn]
    simp [Forest.visits, blockOf]

lemma isSpaces_level {c : Char} {n : Nat} (hc : isSpace c = true) :
    IsSpaces (Indent.level ⟨[c], some (n : Int)⟩) :=
  isSpaces_times (isSpaces_singleton hc) _

/-- **The printed blocks mean what the tree says.** Whatever blanks the indentation is made of,
reading them gives one block for each node of a walk, with the selector that the way to the node
spells and with the node's declarations. The walk meets each node below the root once. -/
theorem read?_print_ofRules {source : Text} {rules : List Rule} {c : Char} (n : Nat)
    (hs : Sheet.parse source = .ok rules) (hc : isSpace c = true) :
    read? (print ⟨[c], some (n : Int)⟩ (Tree.ofRules rules)) =
        some ((Tree.ofRules rules).visits.map blockOf) ∧
      (Tree.ofRules rules).walk = (Tree.ofRules rules).visits.map Tree.Visit.entry ∧
      ((Tree.ofRules rules).visits.map Tree.Visit.path).Nodup ∧
      ∀ v, v ∈ (Tree.ofRules rules).visits ↔
        v.path ≠ [] ∧ (Tree.ofRules rules).find? v.path = some v.node := by
  have ht := Tree.distinct_ofRules rules
  have hw := Tree.walk_eq_visits (Tree.ofRules rules)
  have hleg : ∀ e ∈ (Tree.ofRules rules).walk, Legible e := by
    intro e he
    rw [hw] at he
    obtain ⟨v, hv, rfl⟩ := List.mem_map.mp he
    exact legible_of_mem_visits (plain_of_parse hs) hv
  refine ⟨?_, hw, Tree.nodup_visits ht, Tree.mem_visits ht⟩
  rw [print, ofTree, ← rendered, read?_rendered (isSpaces_level hc) hleg]
  exact congrArg some (blocks_eq_visits _ [])

/-- A value that looks like a block, an empty one, and a header that looks like a name. -/
theorem read?_print_nested :
    isSpace '\t' = true ∧ ∃ rules,
      Sheet.parse "a\x7bx: y: \x7b\n;z:\x7da:b  c\x7bd:e\x7d".toList = .ok rules ∧
        read? (print ⟨['\t'], some 2⟩ (Tree.ofRules rules)) =
          some [⟨"a".toList, [⟨"x".toList, "y: \x7b\n".toList⟩, ⟨"z".toList, []⟩]⟩,
            ⟨"a:b".toList, []⟩, ⟨"a:b c".toList, [⟨"d".toList, "e".toList⟩]⟩] := by
  obtain ⟨rules, hs⟩ :
      ∃ rules, Sheet.parse "a\x7bx: y: \x7b\n;z:\x7da:b  c\x7bd:e\x7d".toList = .ok rules :=
    ⟨_, rfl⟩
  refine ⟨rfl, rules, hs, ?_⟩
  refine (read?_print_ofRules (c := '\t') 2 hs rfl).1.trans ?_
  cases hs
  rfl

end StyleNest.Scss
