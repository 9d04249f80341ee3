import StyleNest.Proofs.Tree.OfSheet

/-!
Slices of chains.

The text of a chain is the text it was read from, up to the blanks at its end. What stands side by
side in a chain may stand so by itself, so a slice of a chain is cut where the chain was, wherever
it begins and ends. The path of a node is the beginning of a chain, and thus a chain.
-/

namespace StyleNest

open Text Selector Sheet

namespace Selector

lemma Chain.Spelled.of_isInfix {cs bs : Chain} (h : cs.Spelled) (hb : bs <:+: cs) :
    bs.Spelled := by
  obtain ⟨as, ds, rfl⟩ := hb
  exact ⟨fun c hc => h.1 c (by simp [hc]), h.2.left_of_append.right_of_append⟩

/-- A chain is read from its own text. -/
lemma Chain.Spelled.parse_text {cs : Chain} (h : cs.Spelled) : parse cs.text = .ok cs :=
  parse_of_reads ⟨h, [], by simp, by simp⟩

lemma text_of_parse {s : Text} {cs : Chain} (h : parse s = .ok cs) : cs.text = trimRight s := by
  obtain ⟨hs, w, hw, rfl⟩ := reads_of_parse h
  exact (trimRight_append_of_blank hs.endsFilled hw).symm

/-- A component that is spelled by the grammar is a chain by itself, so its text tells its kind. -/
lemma Component.Spelled.ext {a b : Component} (ha : a.Spelled) (hb : b.Spelled)
    (h : a.text = b.text) : a = b := by
  have hsingle : ∀ {c : Component}, c.Spelled → parse c.text = .ok [c] := fun {c} hc => by
    have hchain : Chain.Spelled [c] := ⟨by simpa using hc, .singleton c⟩
    simpa using hchain.parse_text
  have e := hsingle ha
  rw [h, hsingle hb] at e
  cases e
  rfl

end Selector

/-- The path of a node of a sheet's tree is that of a chain. -/
lemma Tree.exists_chain_of_find? {rules : List Rule} (hr : ∀ r ∈ rules, r.Plain)
    {p : List Text} (hp : ((ofRules rules).find? p).isSome) :
    ∃ chain : Chain, chain.path = p ∧ chain.Spelled := by
  rcases (isSome_find?_ofRules rules p).mp hp with rfl | ⟨r, hm, chain, hc, hprefix⟩
  · exact ⟨[], rfl, by simp, .nil⟩
  · by_cases hne : p = []
    · exact ⟨[], hne.symm, by simp, .nil⟩
    · obtain ⟨ds, hd, hpath⟩ := ((hr r hm).chains chain hc).exists_of_isPrefix hprefix hne
      exact ⟨ds, hpath, hd.spelled⟩

/-- **A chain keeps the text it was read from, and each of its slices is read as that slice.**
Hence a component's text tells its kind, and the path of any node in the tree of a sheet is read as
the chain of that path. -/
theorem parse_slice {s : Text} {cs : Chain} (h : Selector.parse s = .ok cs) :
    cs.text = trimRight s ∧
      (∀ bs : Chain, bs <:+: cs → Selector.parse bs.text = .ok bs) ∧
      (∀ (t : Text) (ds : Chain), Selector.parse t = .ok ds →
        ∀ a ∈ cs, ∀ b ∈ ds, a.text = b.text → a.kind = b.kind) ∧
      ∀ (source : Text) (rules : List Rule), Sheet.parse source = .ok rules →
        ∀ p : List Text, ((Tree.ofRules rules).find? p).isSome →
          ∃ chain : Chain, chain.path = p ∧ Selector.parse p.flatten = .ok chain := by
  have hs : cs.Spelled := (Selector.reads_of_parse h).1
  refine ⟨text_of_parse h, fun bs hb => (hs.of_isInfix hb).parse_text, ?_, ?_⟩
  · intro t ds ht a ha b hb hab
    have hd : ds.Spelled := (Selector.reads_of_parse ht).1
    rw [(hs.1 a ha).ext (hd.1 b hb) hab]
  · intro source rules hsource p hp
    obtain ⟨chain, rfl, hchain⟩ := Tree.exists_chain_of_find? (plain_of_parse hsource) hp
    refine ⟨chain, rfl, ?_⟩
    rw [Chain.flatten_path]
    exact hchain.parse_text

/-- Behind a bracket a tag may follow at once, and it is a tag by itself. -/
theorem parse_slice_behind_bracket :
    ∃ cs : Chain, Selector.parse "*[x=']']b >::c(d)e \t".toList = .ok cs ∧
      cs.text = "*[x=']']b >::c(d)e".toList ∧
      Selector.parse "b >::c(d)e".toList = .ok (cs.drop 2) := by
  obtain ⟨cs, hs⟩ : ∃ cs, Selector.parse "*[x=']']b >::c(d)e \t".toList = .ok cs := ⟨_, rfl⟩
  obtain ⟨htext, hslice, -⟩ := parse_slice hs
  have hdrop : Chain.text (cs.drop 2) = "b >::c(d)e".toList := by
    cases hs
    rfl
  refine ⟨cs, hs, htext, ?_⟩
  rw [← hdrop]
  exact hslice _ (List.drop_suffix 2 cs).isInfix

end StyleNest
