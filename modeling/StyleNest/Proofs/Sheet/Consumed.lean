import StyleNest.Proofs.Selector.Decomposition
import StyleNest.Sheet.Grammar

/-!
What a scan of a sheet has read.

After any text that the scan lets through, the text is rules that are read to their end followed
by the beginning of one more, and the phase says how far that one has come. A sheet that the scan
accepts therefore follows the grammar.
-/

namespace StyleNest.Sheet

open Text Selector

/-! ### Beginnings of rules -/

/-- Chains that each have a comma behind them. -/
inductive ListOpens : Text → List Chain → Prop where
  | nil : ListOpens [] []
  | snoc {s t w : Text} {cs : List Chain} {c : Chain} :
      ListOpens s cs → IsChainText t → Selector.parse (trim t) = .ok c → IsSpaces w →
      ListOpens (s ++ t ++ ',' :: w) (cs ++ [c])

/-- Declarations that each have a semicolon behind them. -/
inductive BodyOpens : Text → List Declaration → Prop where
  | spaces {w : Text} : IsSpaces w → BodyOpens w []
  | snoc {s t w : Text} {ds : List Declaration} {d : Declaration} :
      BodyOpens s ds → d.Reads t → IsSpaces w → BodyOpens (s ++ t ++ ';' :: w) (ds ++ [d])

/-- What stands before the brace of a rule. -/
def IsHead (s : Text) (cs : List Chain) : Prop := s = [] ∧ cs = [] ∨ ListReads s cs

lemma isSpaces_nil : IsSpaces [] := fun _ h => by cases h

lemma isValue_nil : IsValue (List.reverse []) := by simp [IsValue]

lemma IsSpaces.append {u w : Text} (hu : IsSpaces u) (hw : IsSpaces w) : IsSpaces (u ++ w) := by
  intro c hc
  exact (List.mem_append.mp hc).elim (hu c) (hw c)

lemma isSpaces_singleton {c : Char} (hc : isSpace c = true) : IsSpaces [c] := by
  intro x hx
  rwa [List.mem_singleton.mp hx]

lemma ListOpens.append_spaces {s w : Text} {cs : List Chain} (h : ListOpens s cs) (hcs : cs ≠ [])
    (hw : IsSpaces w) : ListOpens (s ++ w) cs := by
  cases h with
  | nil => exact absurd rfl hcs
  | snoc h ht hc hv =>
    have := ListOpens.snoc h ht hc (hv.append hw)
    simpa using this

lemma ListOpens.reads {s t : Text} {cs ds : List Chain} (h : ListOpens s cs)
    (ht : ListReads t ds) : ListReads (s ++ t) (cs ++ ds) := by
  induction h generalizing t ds with
  | nil => exact ht
  | snoc _ hc hp hw ih =>
    have := ih (.cons hc hp hw ht)
    simpa using this

lemma BodyOpens.append_spaces {s w : Text} {ds : List Declaration} (h : BodyOpens s ds)
    (hw : IsSpaces w) : BodyOpens (s ++ w) ds := by
  cases h with
  | spaces hv => exact .spaces (hv.append hw)
  | snoc h ht hv =>
    have := BodyOpens.snoc h ht (hv.append hw)
    simpa using this

lemma BodyOpens.reads {s t : Text} {ds es : List Declaration} (h : BodyOpens s ds)
    (ht : BodyReads t es) : ∃ w u, s ++ t = w ++ u ∧ IsSpaces w ∧ BodyReads u (ds ++ es) := by
  induction h generalizing t es with
  | spaces hw => exact ⟨_, t, rfl, hw, ht⟩
  | snoc _ hd hw ih =>
    have := ih (.cons hd hw ht)
    simpa using this

lemma IsHead.closes {h b s : Text} {cs : List Chain} {ds es : List Declaration}
    (hh : IsHead h cs) (hb : BodyOpens b ds) (hs : BodyReads s es) :
    Rule.Reads (h ++ '{' :: (b ++ s) ++ ['}']) ⟨cs, ds ++ es⟩ := by
  obtain ⟨w, u, e, hw, hu⟩ := hb.reads hs
  rw [e]
  rcases hh with ⟨rfl, rfl⟩ | hh
  · simpa using Rule.Reads.bare hw hu
  · simpa using Rule.Reads.selecting hh hw hu

lemma IsPropertyName.snoc {s : Text} {c : Char} (h : IsPropertyName s)
    (hc : isPropertyChar c = true) : IsPropertyName (s ++ [c]) :=
  ⟨by simp, List.forall_mem_append.mpr ⟨h.2, by simpa using hc⟩⟩

lemma IsChainText.snoc {s : Text} {c : Char} (h : IsChainText s)
    (hc : isSelectorChar c = true) : IsChainText (s ++ [c]) := by
  obtain ⟨hs, d, hd, hn⟩ := h
  refine ⟨List.forall_mem_append.mpr ⟨hs, by simpa using hc⟩, d, ?_, hn⟩
  rw [List.head?_append, hd]
  rfl

lemma IsValue.snoc {s : Text} {c : Char} (h : IsValue s) (hs : s ≠ []) (hc : c ≠ ';')
    (hc' : c ≠ '}') : IsValue (s ++ [c]) := by
  obtain ⟨d, s, rfl⟩ := List.exists_cons_of_ne_nil hs
  obtain ⟨hd, h1, h2⟩ := h
  refine ⟨hd, fun hm => ?_, fun hm => ?_⟩
  · exact (List.mem_append.mp hm).elim h1 fun e => hc (List.mem_singleton.mp e).symm
  · exact (List.mem_append.mp hm).elim h2 fun e => hc' (List.mem_singleton.mp e).symm

/-! ### What the phases stand for -/

/-- The text of a rule up to where a declaration or the closing brace may follow. -/
def Draft.Opens (d : Draft) (s : Text) : Prop :=
  ∃ h b, s = h ++ '{' :: b ∧ IsHead h d.selectors.reverse ∧ BodyOpens b d.declarations.reverse

/-- The text of a rule up to the name of a declaration. -/
def Draft.Names (d : Draft) (name s : Text) : Prop :=
  ∃ b, s = b ++ name.reverse ∧ d.Opens b ∧ IsPropertyName name.reverse

/-- The text of a rule up to where the value of a declaration may begin. -/
def Draft.Awaits (d : Draft) (name s : Text) : Prop :=
  ∃ b u w, s = b ++ u ++ ':' :: w ∧ d.Names name b ∧ IsSpaces u ∧ IsSpaces w

/-- What a phase says of the text behind the last rule. -/
def Phase.Fits : Phase → Text → Prop
  | .outside, s => s = []
  | .selector done text, s =>
    ∃ l, s = l ++ text.reverse ∧ ListOpens l done.reverse ∧ IsChainText text.reverse
  | .comma done, s => done ≠ [] ∧ ListOpens s done.reverse
  | .block d, s => d.Opens s
  | .inName d name, s => d.Names name s
  | .afterName d name, s => ∃ b u, s = b ++ u ∧ d.Names name b ∧ IsSpaces u
  | .afterColon d name, s => d.Awaits name s
  | .inValue d name value, s =>
    ∃ b, s = b ++ value.reverse ∧ d.Awaits name b ∧ IsValue value.reverse ∧ value ≠ []

lemma Draft.Awaits.reads {d : Draft} {name value s : Text} (h : d.Awaits name s)
    (hv : IsValue value.reverse) :
    ∃ b t, s ++ value.reverse = b ++ t ∧ d.Opens b ∧
      Declaration.Reads t ⟨name.reverse, value.reverse⟩ := by
  obtain ⟨_, u, w, rfl, ⟨b, rfl, hb, hn⟩, hu, hw⟩ := h
  exact ⟨b, name.reverse ++ u ++ ':' :: w ++ value.reverse, by simp, hb, .mk hn hu hw hv⟩

/-- A semicolon ends a declaration. -/
lemma Draft.Awaits.declares {d : Draft} {name value s : Text} (h : d.Awaits name s)
    (hv : IsValue value.reverse) :
    (d.declare name value).Opens (s ++ value.reverse ++ [';']) := by
  obtain ⟨_, t, e, ⟨h, b, rfl, hh, hb⟩, ht⟩ := h.reads hv
  refine ⟨h, b ++ t ++ [';'], by rw [e]; simp, hh, ?_⟩
  have := hb.snoc ht isSpaces_nil
  simpa [Draft.declare] using this

/-- A brace ends a declaration with its rule. -/
lemma Draft.Awaits.closes {d : Draft} {name value s : Text} (h : d.Awaits name s)
    (hv : IsValue value.reverse) :
    Rule.Reads (s ++ value.reverse ++ ['}']) (d.declare name value).rule := by
  obtain ⟨_, t, e, ⟨h, b, rfl, hh, hb⟩, ht⟩ := h.reads hv
  have := hh.closes hb (.last ht)
  rw [e]
  simpa [Draft.declare, Draft.rule] using this

lemma Draft.Opens.closes {d : Draft} {s : Text} (h : d.Opens s) :
    Rule.Reads (s ++ ['}']) d.rule := by
  obtain ⟨h, b, rfl, hh, hb⟩ := h
  have := hh.closes hb .nil
  simpa [Draft.rule] using this

lemma Draft.Opens.append_spaces {d : Draft} {s w : Text} (h : d.Opens s) (hw : IsSpaces w) :
    d.Opens (s ++ w) := by
  obtain ⟨h, b, rfl, hh, hb⟩ := h
  exact ⟨h, b ++ w, by simp, hh, hb.append_spaces hw⟩

/-! ### Single characters -/

lemma endChain_eq_enter {done : List Chain} {text : Text} {next : List Chain → Phase}
    {phase : Phase} (h : endChain done text next = .enter phase) :
    ∃ chain, Selector.parse (trim text.reverse) = .ok chain ∧ phase = next (chain :: done) := by
  unfold endChain at h
  split at h <;> cases h
  exact ⟨_, ‹_›, rfl⟩

lemma endChain_ne_close {done : List Chain} {text : Text} {next : List Chain → Phase}
    {rule : Rule} : endChain done text next ≠ .close rule := by
  unfold endChain
  split <;> simp

lemma isChainText_singleton {c : Char} (hs : isSelectorChar c = true) (hn : isSpace c ≠ true) :
    IsChainText [c] :=
  ⟨by simpa using hs, c, rfl, by simpa using hn⟩

lemma isPropertyName_singleton {c : Char} (hc : isPropertyChar c = true) : IsPropertyName [c] :=
  ⟨by simp, by simpa using hc⟩

variable {phase phase' : Phase} {c : Char} {s : Text} {done : List Chain} {text : Text}

lemma fits_of_selector (hm : (Phase.selector done text).move c = .enter phase')
    (h : (Phase.selector done text).Fits s) : phase'.Fits (s ++ [c]) := by
  obtain ⟨l, rfl, hl, ht⟩ := h
  simp only [Phase.move] at hm
  split_ifs at hm with h1 h2 h3
  · cases hm
    exact ⟨l, by simp, hl, by simpa using ht.snoc h1⟩
  · obtain ⟨chain, hp, rfl⟩ := endChain_eq_enter hm
    subst h2
    have := hl.snoc ht hp isSpaces_nil
    exact ⟨by simp, by simpa using this⟩
  · obtain ⟨chain, hp, rfl⟩ := endChain_eq_enter hm
    subst h3
    have := hl.reads (.one ht hp)
    exact ⟨l ++ text.reverse, [], rfl, .inr (by simpa using this), .spaces isSpaces_nil⟩

lemma fits_of_enter (hm : phase.move c = .enter phase') (h : phase.Fits s) :
    phase = .outside ∧ phase' = .outside ∧ isSpace c = true ∨ phase'.Fits (s ++ [c]) := by
  cases phase with
  | outside =>
    cases h
    simp only [Phase.move] at hm
    split_ifs at hm with h1 h2 h3 <;> cases hm
    · exact .inl ⟨rfl, rfl, h1⟩
    · exact .inr ⟨[], rfl, .nil, isChainText_singleton h2 h1⟩
    · subst h3
      exact .inr ⟨[], [], rfl, .inl ⟨rfl, rfl⟩, .spaces isSpaces_nil⟩
  | selector done text => exact .inr (fits_of_selector hm h)
  | comma done =>
    obtain ⟨hne, hl⟩ := h
    simp only [Phase.move] at hm
    split_ifs at hm with h1 h2 <;> cases hm
    · exact .inr ⟨hne, hl.append_spaces (by simpa using hne) (isSpaces_singleton h1)⟩
    · exact .inr ⟨s, rfl, hl, isChainText_singleton h2 h1⟩
  | block d =>
    simp only [Phase.move] at hm
    split_ifs at hm with h1 h2 <;> cases hm
    · exact .inr (Draft.Opens.append_spaces h (isSpaces_singleton h1))
    · exact .inr ⟨s, rfl, h, isPropertyName_singleton h2⟩
  | inName d name =>
    simp only [Phase.move] at hm
    split_ifs at hm with h1 h2 h3 <;> cases hm
    · obtain ⟨b, rfl, hb, hn⟩ := h
      exact .inr ⟨b, by simp, hb, by simpa using hn.snoc h1⟩
    · exact .inr ⟨s, [c], rfl, h, isSpaces_singleton h2⟩
    · subst h3
      exact .inr ⟨s, [], [], by simp, h, isSpaces_nil, isSpaces_nil⟩
  | afterName d name =>
    obtain ⟨b, u, rfl, hb, hu⟩ := h
    simp only [Phase.move] at hm
    split_ifs at hm with h1 h2 <;> cases hm
    · exact .inr ⟨b, u ++ [c], by simp, hb, hu.append (isSpaces_singleton h1)⟩
    · subst h2
      exact .inr ⟨b, u, [], rfl, hb, hu, isSpaces_nil⟩
  | afterColon d name =>
    simp only [Phase.move] at hm
    split_ifs at hm with h1 h2 h3 <;> cases hm
    · obtain ⟨b, u, w, rfl, hb, hu, hw⟩ := h
      exact .inr ⟨b, u, w ++ [c], by simp, hb, hu, hw.append (isSpaces_singleton h1)⟩
    · subst h3
      exact .inr (by simpa [Phase.Fits] using Draft.Awaits.declares h isValue_nil)
    · refine .inr ⟨s, rfl, h, ?_, by simp⟩
      simpa [IsValue, Ne.symm h2, Ne.symm h3] using h1
  | inValue d name value =>
    obtain ⟨b, rfl, hb, hv, hne⟩ := h
    simp only [Phase.move] at hm
    split_ifs at hm with h1 h2 <;> cases hm
    · subst h2
      exact .inr (hb.declares hv)
    · refine .inr ⟨b, by simp, hb, ?_, by simp⟩
      simpa using hv.snoc (by simpa using hne) h2 h1

lemma reads_of_close {rule : Rule} (hm : phase.move c = .close rule) (h : phase.Fits s) :
    rule.Reads (s ++ [c]) := by
  cases phase with
  | selector done text =>
    simp only [Phase.move] at hm
    split_ifs at hm
    · exact absurd hm endChain_ne_close
    · exact absurd hm endChain_ne_close
  | block d =>
    simp only [Phase.move] at hm
    split_ifs at hm with h1 h2 h3
    cases hm
    subst h3
    exact Draft.Opens.closes h
  | afterColon d name =>
    simp only [Phase.move] at hm
    split_ifs at hm with h1 h2 h3
    cases hm
    subst h2
    simpa using Draft.Awaits.closes h isValue_nil
  | inValue d name value =>
    obtain ⟨b, rfl, hb, hv, -⟩ := h
    simp only [Phase.move] at hm
    split_ifs at hm with h1 h2
    cases hm
    subst h1
    exact hb.closes hv
  | _ =>
    simp only [Phase.move] at hm
    split_ifs at hm

/-! ### Along the scan -/

/-- What a state says of the text read so far. -/
def State.Consumed (st : State) (s : Text) : Prop :=
  ∃ t u, s = t ++ u ∧ Reads t st.rules.reverse ∧ st.phase.Fits u

lemma Reads.append {s t : Text} {rs rs' : List Rule} (h : Reads s rs) (ht : Reads t rs') :
    Reads (s ++ t) (rs ++ rs') := by
  induction h with
  | @nil w hw =>
    cases ht with
    | nil hv => exact .nil (hw.append hv)
    | @cons v t s r rs hv hr hs =>
      have := Reads.cons (hw.append hv) hr hs
      simpa using this
  | cons hw hr _ ih =>
    have := Reads.cons hw hr ih
    simpa using this

lemma reads_singleton {s : Text} {r : Rule} (h : r.Reads s) : Reads s [r] := by
  simpa using Reads.cons isSpaces_nil h (.nil isSpaces_nil)

lemma consumed_initial : State.initial.Consumed [] :=
  ⟨[], [], rfl, .nil isSpaces_nil, rfl⟩

lemma State.Consumed.step {st st' : State} (h : st.Consumed s) (hs : step st c = .ok st') :
    st'.Consumed (s ++ [c]) := by
  obtain ⟨t, u, rfl, ht, hu⟩ := h
  unfold Sheet.step at hs
  split at hs <;> cases hs
  · rename_i phase hm
    rcases fits_of_enter hm hu with ⟨hp, rfl, hc⟩ | hf
    · -- Blanks between two rules belong to what is read to its end.
      rw [hp] at hu
      cases hu
      refine ⟨t ++ [c], [], by simp, ?_, rfl⟩
      simpa using ht.append (.nil (isSpaces_singleton hc))
    · exact ⟨t, u ++ [c], by simp, ht, hf⟩
  · rename_i rule hm
    refine ⟨t ++ (u ++ [c]), [], by simp, ?_, rfl⟩
    rw [List.reverse_cons]
    exact ht.append (reads_singleton (reads_of_close hm hu))

lemma State.Consumed.run {st st' : State} {t : Text} (h : st.Consumed s)
    (ht : run st t = .ok st') : st'.Consumed (s ++ t) := by
  induction t generalizing st s with
  | nil =>
    cases ht
    rwa [List.append_nil]
  | cons c t ih =>
    rw [run_cons] at ht
    cases hs : Sheet.step st c with
    | error e =>
      rw [hs] at ht
      cases ht
    | ok m =>
      rw [hs] at ht
      have := ih (h.step hs) ht
      rwa [List.append_assoc] at this

lemma State.Consumed.reads {st : State} {rs : List Rule} (h : st.Consumed s)
    (hf : finish st = .ok rs) : Reads s rs := by
  obtain ⟨t, u, rfl, ht, hu⟩ := h
  unfold finish at hf
  split at hf
  · rename_i hp
    cases hf
    rw [hp] at hu
    cases hu
    rwa [List.append_nil]
  · cases hf

end StyleNest.Sheet
