import StyleNest.Proofs.Sheet.Reading

/-!
What the rules of a sheet are made of.

Nothing is added to the texts that a sheet is cut into, so its chains hold selector characters
only, its names property characters only, and its values nothing that ends a declaration.
-/

namespace StyleNest.Sheet

open Text Selector

lemma isBlank_of_isSpace {c : Char} (h : isSpace c = true) : isBlank c = true := by
  simp only [isSpace, Bool.or_eq_true, beq_iff_eq] at h
  rcases h with ((rfl | rfl) | rfl) | rfl <;> rfl

lemma isBlank_eq_false_of_isSelectorChar {c : Char} (hs : isSelectorChar c = true)
    (hn : isSpace c = false) : isBlank c = false := by
  simp only [isSelectorChar, hn, Bool.or_false, Bool.or_eq_true, beq_iff_eq] at hs
  rcases hs with hs | hs
  · exact isBlank_eq_false_of_isNameChar (by simp [isNameChar, hs])
  · rcases hs with (((((((((((((((((rfl | rfl) | rfl) | rfl) | rfl) | rfl) | rfl) | rfl) | rfl) |
      rfl) | rfl) | rfl) | rfl) | rfl) | rfl) | rfl) | rfl) | rfl) | rfl <;> rfl

/-! ### Rules -/

/-- A chain as a sheet can hold it. -/
structure IsPlainChain (chain : Chain) : Prop where
  spelled : chain.Spelled
  chars : ∀ c ∈ chain.text, isSelectorChar c = true
  head : ∃ c ∈ chain.text.head?, isBlank c = false

/-- A declaration as a sheet can hold it. -/
structure Declaration.Plain (d : Declaration) : Prop where
  name : IsPropertyName d.name
  value : IsValue d.value

/-- A rule as a sheet can hold it. -/
structure Rule.Plain (r : Rule) : Prop where
  chains : ∀ chain ∈ r.selectors, IsPlainChain chain
  declarations : ∀ d ∈ r.declarations, d.Plain

variable {s t : Text}

lemma isPlainChain_of_parse {chain : Chain} (ht : IsChainText t)
    (h : Selector.parse (trim t) = .ok chain) : IsPlainChain chain := by
  obtain ⟨hs, w, hw, e⟩ := Selector.reads_of_parse h
  refine ⟨hs, fun c hc => ht.1 c (mem_of_mem_trim ?_), ?_⟩
  · rw [e]
    exact List.mem_append_left w hc
  · obtain ⟨hchars, c, hc, hn⟩ := ht
    have hb := isBlank_eq_false_of_isSelectorChar (hchars c (List.mem_of_mem_head? hc)) hn
    have hhead := head?_trim hc hb
    rw [e] at hhead
    exact ⟨c, head?_of_append_blank hw hhead hb, hb⟩

lemma ListReads.plain {cs : List Chain} (h : ListReads t cs) : ∀ c ∈ cs, IsPlainChain c := by
  induction h with
  | one ht hp => simpa using isPlainChain_of_parse ht hp
  | cons ht hp _ _ ih => exact List.forall_mem_cons.mpr ⟨isPlainChain_of_parse ht hp, ih⟩

lemma Declaration.Reads.plain {d : Declaration} (h : d.Reads t) : d.Plain := by
  cases h with
  | mk hn _ _ hv => exact ⟨hn, hv⟩

lemma BodyReads.plain {ds : List Declaration} (h : BodyReads t ds) : ∀ d ∈ ds, d.Plain := by
  induction h with
  | nil => simp
  | last hd => simpa using hd.plain
  | cons hd _ _ ih => exact List.forall_mem_cons.mpr ⟨hd.plain, ih⟩

lemma Rule.Reads.plain {r : Rule} (h : r.Reads t) : r.Plain := by
  cases h with
  | bare _ hb => exact ⟨by simp, hb.plain⟩
  | selecting hl _ hb => exact ⟨hl.plain, hb.plain⟩

lemma Reads.plain {rules : List Rule} (h : Reads s rules) : ∀ r ∈ rules, r.Plain := by
  induction h with
  | nil => simp
  | cons _ hr _ ih => exact List.forall_mem_cons.mpr ⟨hr.plain, ih⟩

lemma plain_of_parse {rules : List Rule} (h : parse s = .ok rules) : ∀ r ∈ rules, r.Plain :=
  (reads_of_parse h).plain

end StyleNest.Sheet
