import StyleNest.Convert
import StyleNest.Proofs.Tree.OfSheet

/-!
Where the characters of a conversion come from.

A sheet is cut into texts, the tree moves them about, and printing puts characters of its own
between them. So a character that printing does not add is printed only if it was read.
-/

namespace StyleNest

open Text Selector Sheet

/-! ### Rules -/

namespace Sheet

def Declaration.StandsIn (d : Declaration) (s : Text) : Prop := d.name ⊆ s ∧ d.value ⊆ s

/-- All texts of a rule stand in a text. -/
structure Rule.StandsIn (r : Rule) (s : Text) : Prop where
  chains : ∀ chain ∈ r.selectors, chain.text ⊆ s
  declarations : ∀ d ∈ r.declarations, d.StandsIn s

variable {s t : Text}

lemma Declaration.StandsIn.mono {d : Declaration} (h : d.StandsIn s) (hs : s ⊆ t) :
    d.StandsIn t :=
  ⟨List.Subset.trans h.1 hs, List.Subset.trans h.2 hs⟩

lemma Rule.StandsIn.mono {r : Rule} (h : r.StandsIn s) (hs : s ⊆ t) : r.StandsIn t :=
  ⟨fun chain hc => List.Subset.trans (h.chains chain hc) hs, fun d hd =>
    (h.declarations d hd).mono hs⟩

lemma text_subset_of_parse {chain : Chain} (h : Selector.parse (trim t) = .ok chain) :
    chain.text ⊆ t := by
  obtain ⟨-, w, -, e⟩ := Selector.reads_of_parse h
  intro c hc
  refine mem_of_mem_trim ?_
  rw [e]
  exact List.mem_append_left w hc

lemma ListReads.subset {cs : List Chain} (h : ListReads t cs) : ∀ c ∈ cs, c.text ⊆ t := by
  induction h with
  | one _ hp => simpa using text_subset_of_parse hp
  | cons _ hp _ _ ih =>
    refine List.forall_mem_cons.mpr ⟨fun x hx => ?_, fun d hd x hx => ?_⟩
    · simp [text_subset_of_parse hp hx]
    · simp [ih d hd hx]

lemma Declaration.Reads.standsIn {d : Declaration} (h : d.Reads t) : d.StandsIn t := by
  cases h
  constructor <;> intro c hc <;> simp [hc]

lemma BodyReads.standsIn {ds : List Declaration} (h : BodyReads t ds) :
    ∀ d ∈ ds, d.StandsIn t := by
  induction h with
  | nil => simp
  | last hd => simpa using hd.standsIn
  | cons hd _ _ ih =>
    refine List.forall_mem_cons.mpr ⟨hd.standsIn.mono ?_, fun d hd => (ih d hd).mono ?_⟩ <;>
      exact fun x hx => by simp [hx]

lemma Rule.Reads.standsIn {r : Rule} (h : r.Reads t) : r.StandsIn t := by
  cases h with
  | bare _ hb =>
    exact ⟨by simp, fun d hd => (hb.standsIn d hd).mono fun x hx => by simp [hx]⟩
  | selecting hl _ hb =>
    refine ⟨fun chain hc x hx => ?_, fun d hd => (hb.standsIn d hd).mono fun x hx => by simp [hx]⟩
    simp [hl.subset chain hc hx]

lemma Reads.standsIn {rules : List Rule} (h : Reads s rules) : ∀ r ∈ rules, r.StandsIn s := by
  induction h with
  | nil => simp
  | cons _ hr _ ih =>
    refine List.forall_mem_cons.mpr ⟨hr.standsIn.mono ?_, fun r hm => (ih r hm).mono ?_⟩ <;>
      exact fun x hx => by simp [hx]

end Sheet

/-! ### Trees -/

lemma Selector.Chain.subset_of_isPrefix {chain : Chain} {p : List Text} (hp : p <+: chain.path)
    {text : Text} (ht : text ∈ p) : text ⊆ chain.text := by
  intro c hc
  rw [← Chain.flatten_path]
  exact List.mem_flatten.mpr ⟨text, hp.subset ht, hc⟩

lemma Tree.subset_of_mem_visits {s : Text} {rules : List Rule} (hr : ∀ r ∈ rules, r.StandsIn s)
    {v : Visit} (hv : v ∈ (ofRules rules).visits) :
    v.path.getLastD [] ⊆ s ∧ ∀ d ∈ v.node.declarations, d.StandsIn s := by
  obtain ⟨hne, r, hm, chain, hc, hp⟩ := exists_chain_of_mem_visits hv
  refine ⟨?_, fun d hd => ?_⟩
  · exact List.Subset.trans (Chain.subset_of_isPrefix hp (Visit.text_mem_path hne))
      ((hr r hm).chains chain hc)
  · obtain ⟨r, hm, hd⟩ := exists_rule_of_mem_declarations hv hd
    exact (hr r hm).declarations d hd

/-! ### Lines -/

namespace Scss

/-- What printing adds to the texts of a tree, besides the indentation. -/
def layout : Text := "&\x7b\x7d: ;\n".toList

variable {level : Text} {c : Char}

lemma mem_header {depth : Nat} {text : Text} (h : c ∈ header depth text) :
    c ∈ layout ∨ c ∈ text := by
  unfold header at h
  split at h
  · rcases List.mem_cons.mp h with rfl | h
    · exact .inl (by decide)
    · exact .inr h
  · exact .inr (mem_of_mem_trimLeft h)

lemma mem_written {d : Declaration} {s : Text} (hd : d.StandsIn s) (h : c ∈ d.written) :
    c ∈ layout ∨ c ∈ s := by
  simp only [Declaration.written, List.mem_append] at h
  rcases h with ((h | h) | h) | h
  · exact .inr (hd.1 h)
  · exact .inl ((by decide : ": ".toList ⊆ layout) h)
  · exact .inr (hd.2 h)
  · exact .inl ((by decide : ";".toList ⊆ layout) h)

lemma mem_times {n : Nat} (h : c ∈ times n level) : c ∈ level := by
  obtain ⟨s, hs, hc⟩ := List.mem_flatten.mp h
  rwa [List.eq_of_mem_replicate hs] at hc

/-- The printed lines of a forest hold what its texts and declarations hold. -/
lemma mem_render {f : Forest} {above : List Text} {s : Text}
    (hf : ∀ v ∈ f.visits above, v.path.getLastD [] ⊆ s ∧ ∀ d ∈ v.node.declarations, d.StandsIn s)
    {depth : Nat} {spaced : Bool} {line : Line} (hl : line ∈ lines depth spaced f)
    (hc : c ∈ line.render level) : c ∈ level ∨ c ∈ layout ∨ c ∈ s := by
  have hcontent : ∀ (n : Nat) (text : Text), (c ∈ text → c ∈ layout ∨ c ∈ s) →
      c ∈ (Line.content n text).render level → c ∈ level ∨ c ∈ layout ∨ c ∈ s := by
    intro n text ht h
    rcases List.mem_append.mp h with h | h
    · exact .inl (mem_times h)
    · exact .inr (ht h)
  induction f generalizing above depth spaced with
  | nil => cases hl
  | cons text ds below next ihb ihn =>
    rw [Forest.visits, List.cons_append, List.forall_mem_cons] at hf
    obtain ⟨⟨htext, hds⟩, hf⟩ := hf
    rw [List.forall_mem_append] at hf
    rw [List.getLastD_concat] at htext
    simp only [lines, List.mem_append, List.mem_cons, List.mem_map] at hl
    rcases hl with ((hl | rfl | ⟨d, hd, rfl⟩) | hl) | rfl | hl
    · obtain rfl : line = .empty := by
        split at hl
        · simpa using hl
        · cases hl
      cases hc
    · refine hcontent _ _ (fun h => ?_) hc
      rcases List.mem_append.mp h with h | h
      · exact (mem_header h).imp_right fun h => htext h
      · exact .inl ((by decide : [' ', '\x7b'] ⊆ layout) h)
    · exact hcontent _ _ (mem_written (hds d hd)) hc
    · exact ihb hf.1 hl
    · exact hcontent _ _ (fun h => .inl ((by decide : ['\x7d'] ⊆ layout) h)) hc
    · exact ihn hf.2 hl

end Scss

/-- **A conversion prints the characters that it reads**, and those of the layout. -/
theorem mem_convertRules {settings : Settings} {source : Text} {rules : List Rule}
    (hs : Sheet.parse source = .ok rules) {c : Char} (hc : c ∈ convertRules settings rules) :
    c = settings.indentChar ∨ c ∈ Scss.layout ∨ c ∈ source := by
  have hsource := (Sheet.reads_of_parse hs).standsIn
  obtain ⟨line, hl, hc⟩ := List.mem_flatMap.mp hc
  rcases List.mem_append.mp hc with hc | hc
  · obtain ⟨line, hline, rfl⟩ := List.mem_map.mp hl
    have hvisits : ∀ v ∈ (Tree.ofRules rules).children.visits [],
        v.path.getLastD [] ⊆ source ∧ ∀ d ∈ v.node.declarations, d.StandsIn source :=
      fun v hv => Tree.subset_of_mem_visits hsource hv
    refine (Scss.mem_render hvisits hline hc).imp_left fun h => ?_
    exact List.mem_singleton.mp (Scss.mem_times h)
  · exact .inr (.inl ((by decide : ['\n'] ⊆ Scss.layout) hc))

end StyleNest
