import StyleNest.Selector.Grammar

/-!
What a scan of a chain has read.

After any text that the scan lets through, the text is the components cut off so far followed by
the beginning of one more, and the phase says how far that one has come. From there the chain that
a scan ends with follows the grammar, and its text is the text read.
-/

namespace StyleNest.Selector

open Text

/-! ### The grammar at the end of a text -/

lemma IsTail.append {s t : Text} (hs : IsTail s) (ht : IsTail t) : IsTail (s ++ t) := by
  induction hs with
  | nil => exact ht
  | char hc _ ih => exact .char hc ih
  | @group u s hu _ ih =>
    rw [List.append_assoc, List.cons_append]
    exact .group hu ih

lemma IsContent.append {s t : Text} (hs : IsContent s) (ht : IsContent t) :
    IsContent (s ++ t) := by
  induction hs with
  | nil => exact ht
  | char hm h h' _ ih => exact .char hm h h' ih
  | @quoted m u s hm hu _ ih =>
    rw [List.append_assoc, List.cons_append]
    exact .quoted hm hu ih

lemma IsName.snoc {s : Text} {c : Char} (h : IsName s) (hc : isNameChar c = true) :
    IsName (s ++ [c]) :=
  ⟨by simp, List.forall_mem_append.mpr ⟨h.2, by simpa using hc⟩⟩

/-- More of a tail may be written behind a pseudo class. -/
lemma Kind.Spells.append_tail {q t : Text} (h : Spells .pseudoClass q) (ht : IsTail t) :
    Spells .pseudoClass (q ++ t) := by
  cases h with
  | pseudoClass hs hu =>
    rw [List.append_assoc]
    exact .pseudoClass hs (hu.append ht)
  | pseudoElement hs hu =>
    rw [List.append_assoc]
    exact .pseudoElement hs (hu.append ht)

/-- More name characters may be written behind anything but a bracket. -/
lemma Kind.Spells.snoc {kind : Kind} {q : Text} {c : Char} (h : kind.Spells q)
    (hk : kind ≠ .attribute) (hc : isNameChar c = true) : kind.Spells (q ++ [c]) := by
  cases h with
  | tag hd hs => exact .tag hd (List.forall_mem_append.mpr ⟨hs, by simpa using hc⟩)
  | id hs => exact .id (hs.snoc hc)
  | className hs => exact .className (hs.snoc hc)
  | pseudoClass hs ht => exact (Kind.Spells.pseudoClass hs ht).append_tail (.char hc .nil)
  | pseudoElement hs ht => exact (Kind.Spells.pseudoElement hs ht).append_tail (.char hc .nil)
  | _ => exact absurd rfl hk

lemma Chain.Spelled.snoc {cs : Chain} {c : Component} (h : Chain.Spelled cs) (hc : c.Spelled)
    (hj : ∀ a ∈ cs.getLast?, a.Joins c) : Chain.Spelled (cs ++ [c]) := by
  refine ⟨List.forall_mem_append.mpr ⟨h.1, by simpa using hc⟩, ?_⟩
  refine h.2.append (.singleton c) fun a ha b hb => ?_
  rw [List.head?_cons, Option.mem_some_iff] at hb
  exact hb ▸ hj a ha

@[simp] lemma Chain.text_nil : Chain.text [] = [] := rfl

@[simp] lemma Chain.text_cons (c : Component) (cs : Chain) :
    Chain.text (c :: cs) = c.text ++ Chain.text cs := rfl

@[simp] lemma Chain.text_append (cs ds : Chain) :
    Chain.text (cs ++ ds) = Chain.text cs ++ Chain.text ds := by
  simp [Chain.text]

/-! ### What the phases stand for -/

/-- The text behind the last component. -/
def Phase.pending : Phase → Text
  | .lead text | .marker _ text | .colon text | .arguments text | .attribute _ text
  | .quoted _ text => text.reverse
  | .name _ last text => (last :: text).reverse

/-- The markers that want a name. -/
inductive Kind.Marked : Kind → Text → Prop where
  | id : Marked .id ['#']
  | className : Marked .className ['.']
  | pseudoElement : Marked .pseudoClass [':', ':']

/-- What a phase says of a component's text apart from what stands before it. -/
def Phase.Body : Phase → Text → Prop
  | .lead _, q => q = []
  | .marker kind _, q => kind.Marked q
  | .colon _, q => q = [':']
  | .name kind _ _, q => kind ≠ .attribute ∧ kind.Spells q
  | .arguments _, q => ∃ r u, q = r ++ '(' :: u ∧ Kind.Spells .pseudoClass r ∧ ')' ∉ u
  | .attribute filled _, q => ∃ u, q = '[' :: u ∧ IsContent u ∧ (filled = true → u ≠ [])
  | .quoted m _, q =>
    ∃ u v, q = '[' :: u ++ m :: v ∧ IsContent u ∧ isMark m = true ∧ m ∉ v

/-- The pending text is the beginning of a component, as far as the phase says. -/
def Phase.Fits (phase : Phase) : Prop :=
  ∃ p q, phase.pending = p ++ q ∧ IsLead p ∧ phase.Body q

@[simp] lemma text_close (kind : Kind) (last : Char) (text : Text) :
    (close kind last text).text = (last :: text).reverse := rfl

lemma spelled_close {kind : Kind} {last : Char} {text : Text}
    (h : (Phase.name kind last text).Fits) : (close kind last text).Spelled := by
  obtain ⟨p, q, e, hp, -, hq⟩ := h
  exact ⟨p, q, e, hp, hq⟩

lemma spelled_close_attribute {text : Text} (h : (Phase.attribute true text).Fits) :
    (close .attribute ']' text).Spelled := by
  obtain ⟨p, q, e, hp, u, rfl, hu, hf⟩ := h
  refine ⟨p, '[' :: u ++ [']'], ?_, hp, .attribute (hf rfl) hu⟩
  have e' : text.reverse = p ++ '[' :: u := e
  rw [text_close, List.reverse_cons, e']
  simp

lemma begin?_eq_some {text : Text} {c : Char} {phase : Phase} (h : begin? text c = some phase) :
    phase.pending = text.reverse ++ [c] ∧ (IsLead text.reverse → phase.Fits) := by
  unfold begin? at h
  split_ifs at h with h1 h2 h3 h4 h5 h6 <;> cases h <;>
    refine ⟨by simp [Phase.pending], fun ht => ?_⟩
  · refine ⟨(c :: text).reverse, [], by simp [Phase.pending], fun x hx => ?_, rfl⟩
    rcases List.mem_cons.mp (List.mem_reverse.mp hx) with rfl | hx
    · simpa using h1
    · exact ht x (List.mem_reverse.mpr hx)
  · subst h2
    exact ⟨_, _, by simp [Phase.pending], ht, .id⟩
  · subst h3
    exact ⟨_, _, by simp [Phase.pending], ht, .className⟩
  · subst h4
    exact ⟨_, _, by simp [Phase.pending], ht, rfl⟩
  · subst h5
    exact ⟨_, ['['], by simp [Phase.pending], ht, [], rfl, .nil, by simp⟩
  · refine ⟨_, [c], by simp [Phase.pending], ht, by simp, ?_⟩
    exact .tag (by simpa using h6) (by simp)

lemma isLead_of_fits {text : Text} (h : (Phase.lead text).Fits) : IsLead text.reverse := by
  obtain ⟨p, q, e, hp, rfl⟩ := h
  rw [List.append_nil] at e
  exact (show text.reverse = p from e) ▸ hp

/-- What one character does: it goes on with the pending text, or it ends a component, either as
the delimiter that begins the next one or as the bracket that is the last of its own. -/
inductive Extends (st : State) (c : Char) : State → Prop where
  | goesOn {phase : Phase} :
      phase.pending = st.phase.pending ++ [c] → (st.phase.Fits → phase.Fits) →
      Extends st c ⟨st.done, phase⟩
  | delimits {kind : Kind} {last : Char} {text : Text} {phase : Phase} :
      st.phase = .name kind last text → isDelimiter c = true → phase.pending = [c] → phase.Fits →
      Extends st c ⟨close kind last text :: st.done, phase⟩
  | closes {text : Text} :
      st.phase = .attribute true text → c = ']' →
      Extends st c ⟨close .attribute ']' text :: st.done, .lead []⟩

lemma extends_marker {done : Chain} {kind : Kind} {text : Text} {c : Char}
    (hc : isNameChar c = true) :
    Extends ⟨done, .marker kind text⟩ c ⟨done, .name kind c text⟩ := by
  refine .goesOn (by simp [Phase.pending]) ?_
  rintro ⟨p, q, e, hp, hq⟩
  have hn : IsName [c] := ⟨by simp, by simpa using hc⟩
  refine ⟨p, q ++ [c], by simp_all [Phase.pending], hp, ?_⟩
  cases hq with
  | id => exact ⟨by simp, .id hn⟩
  | className => exact ⟨by simp, .className hn⟩
  | pseudoElement => exact ⟨by simp, by simpa using Kind.Spells.pseudoElement hn .nil⟩

lemma extends_colon {done : Chain} {text : Text} {c : Char} {st : State}
    (h : step? ⟨done, .colon text⟩ c = some st) : Extends ⟨done, .colon text⟩ c st := by
  simp only [step?] at h
  split_ifs at h with h1 h2 <;> cases h
  · subst h1
    refine .goesOn (by simp [Phase.pending]) ?_
    rintro ⟨p, q, e, hp, rfl⟩
    exact ⟨p, [':', ':'], by simp_all [Phase.pending], hp, .pseudoElement⟩
  · refine .goesOn (by simp [Phase.pending]) ?_
    rintro ⟨p, q, e, hp, rfl⟩
    have hn : IsName [c] := ⟨by simp, by simpa using h2⟩
    exact ⟨p, [':', c], by simp_all [Phase.pending], hp, by simp, .pseudoClass hn .nil⟩

lemma extends_name {done : Chain} {kind : Kind} {last : Char} {text : Text} {c : Char}
    {st : State} (h : step? ⟨done, .name kind last text⟩ c = some st) :
    Extends ⟨done, .name kind last text⟩ c st := by
  simp only [step?] at h
  split_ifs at h with h1 h2 h3
  · cases h
    refine .goesOn (by simp [Phase.pending]) ?_
    rintro ⟨p, q, e, hp, hk, hq⟩
    exact ⟨p, q ++ [c], by simp_all [Phase.pending], hp, hk, hq.snoc hk h1⟩
  · cases h
    obtain ⟨rfl, rfl⟩ := h2
    refine .goesOn (by simp [Phase.pending]) ?_
    rintro ⟨p, q, e, hp, -, hq⟩
    exact ⟨p, q ++ ['('], by simp_all [Phase.pending], hp, q, [], rfl, hq, by simp⟩
  · obtain ⟨phase, hb, rfl⟩ := Option.map_eq_some_iff.mp h
    obtain ⟨e, hf⟩ := begin?_eq_some hb
    exact .delimits rfl h3 e (hf (by simp [IsLead]))

lemma extends_arguments {done : Chain} {text : Text} {c : Char} {st : State}
    (h : step? ⟨done, .arguments text⟩ c = some st) : Extends ⟨done, .arguments text⟩ c st := by
  simp only [step?] at h
  split_ifs at h with h1 <;> cases h
  · subst h1
    refine .goesOn (by simp [Phase.pending]) ?_
    rintro ⟨p, _, e, hp, r, u, rfl, hr, hu⟩
    refine ⟨p, r ++ ('(' :: u ++ ')' :: []), by simp_all [Phase.pending], hp, by simp, ?_⟩
    exact hr.append_tail (.group hu .nil)
  · refine .goesOn (by simp [Phase.pending]) ?_
    rintro ⟨p, _, e, hp, r, u, rfl, hr, hu⟩
    exact ⟨p, r ++ '(' :: (u ++ [c]), by simp_all [Phase.pending], hp, r, u ++ [c], rfl, hr,
      by simp [hu, Ne.symm h1]⟩

lemma extends_attribute {done : Chain} {filled : Bool} {text : Text} {c : Char} {st : State}
    (h : step? ⟨done, .attribute filled text⟩ c = some st) :
    Extends ⟨done, .attribute filled text⟩ c st := by
  simp only [step?] at h
  split_ifs at h with h1 h2 h3 h4 <;> cases h
  · refine .goesOn (by simp [Phase.pending]) ?_
    rintro ⟨p, _, e, hp, u, rfl, hu, -⟩
    exact ⟨p, '[' :: u ++ c :: [], by simp_all [Phase.pending], hp, u, [], rfl, hu, h1, by simp⟩
  · subst h3 h4
    exact .closes rfl rfl
  · refine .goesOn (by simp [Phase.pending]) ?_
    rintro ⟨p, _, e, hp, u, rfl, hu, -⟩
    refine ⟨p, '[' :: (u ++ [c]), by simp_all [Phase.pending], hp, u ++ [c], rfl, ?_, by simp⟩
    exact hu.append (.char (by simpa using h1) h2 h3 .nil)

lemma extends_quoted {done : Chain} {m : Char} {text : Text} {c : Char} {st : State}
    (h : step? ⟨done, .quoted m text⟩ c = some st) : Extends ⟨done, .quoted m text⟩ c st := by
  simp only [step?] at h
  split_ifs at h with h1 <;> cases h
  · subst h1
    refine .goesOn (by simp [Phase.pending]) ?_
    rintro ⟨p, _, e, hp, u, v, rfl, hu, hm, hv⟩
    refine ⟨p, '[' :: (u ++ (c :: v ++ c :: [])), by simp_all [Phase.pending], hp, _, rfl, ?_,
      by simp⟩
    exact hu.append (.quoted hm hv .nil)
  · refine .goesOn (by simp [Phase.pending]) ?_
    rintro ⟨p, _, e, hp, u, v, rfl, hu, hm, hv⟩
    exact ⟨p, '[' :: u ++ m :: (v ++ [c]), by simp_all [Phase.pending], hp, u, v ++ [c], rfl, hu,
      hm, by simp [hv, Ne.symm h1]⟩

lemma extends_of_step? {st st' : State} {c : Char} (h : step? st c = some st') :
    Extends st c st' := by
  obtain ⟨done, phase⟩ := st
  cases phase with
  | lead text =>
    simp only [step?] at h
    obtain ⟨phase, hb, rfl⟩ := Option.map_eq_some_iff.mp h
    obtain ⟨e, hf⟩ := begin?_eq_some hb
    exact .goesOn e fun h => hf (isLead_of_fits h)
  | marker kind text =>
    simp only [step?] at h
    split_ifs at h with hc
    cases h
    exact extends_marker hc
  | colon text => exact extends_colon h
  | name kind last text => exact extends_name h
  | arguments text => exact extends_arguments h
  | «attribute» filled text => exact extends_attribute h
  | quoted m text => exact extends_quoted h

/-! ### Along the scan -/

/-- A text that begins with a delimiter. -/
def IsDelimited (s : Text) : Prop := ∃ c ∈ s.head?, isDelimiter c = true

lemma IsDelimited.append {s : Text} (h : IsDelimited s) (t : Text) : IsDelimited (s ++ t) := by
  obtain ⟨c, hc, hd⟩ := h
  refine ⟨c, ?_, hd⟩
  rw [List.head?_append, hc]
  rfl

/-- Nothing of a component has been read yet. -/
lemma fits_lead_nil : (Phase.lead []).Fits := ⟨[], [], rfl, by simp [IsLead], rfl⟩

/-- What a state says of the text read so far. -/
structure State.Consumed (st : State) (s : Text) : Prop where
  text_eq : s = Chain.text st.done.reverse ++ st.phase.pending
  spelled : Chain.Spelled st.done.reverse
  fits : st.phase.Fits
  joined : ∀ a ∈ st.done.head?, a.kind = .attribute ∨ IsDelimited st.phase.pending

lemma consumed_initial : State.initial.Consumed [] where
  text_eq := rfl
  spelled := ⟨by simp [State.initial], .nil⟩
  fits := fits_lead_nil
  joined := by simp [State.initial]

variable {st st' : State} {s : Text}

/-- A component that the pending text begins is one more of the chain. -/
lemma State.Consumed.spelled_cons {c : Component} {t : Text} (h : st.Consumed s) (hc : c.Spelled)
    (ht : c.text = st.phase.pending ++ t) : Chain.Spelled (c :: st.done).reverse := by
  rw [List.reverse_cons]
  refine h.spelled.snoc hc fun a ha => ?_
  rw [List.getLast?_reverse] at ha
  refine (h.joined a ha).imp_right fun hd => ?_
  rw [ht]
  exact hd.append t

lemma State.Consumed.step {c : Char} (h : st.Consumed s) (hs : step? st c = some st') :
    st'.Consumed (s ++ [c]) := by
  cases extends_of_step? hs with
  | @goesOn phase e hf =>
    refine ⟨?_, h.spelled, hf h.fits, fun a ha => (h.joined a ha).imp_right fun hd => ?_⟩
    · rw [h.text_eq, e, List.append_assoc]
    · rw [e]
      exact hd.append [c]
  | @delimits kind last text phase hp hd e hf =>
    have hc : (close kind last text).Spelled := spelled_close (hp ▸ h.fits)
    refine ⟨?_, h.spelled_cons (t := []) hc (by simp [hp, Phase.pending]), hf, fun a ha => ?_⟩
    · rw [h.text_eq, e, hp]
      simp [Phase.pending]
    · exact .inr ⟨c, by simp [e], hd⟩
  | @closes text hp e =>
    have hc : (close .attribute ']' text).Spelled := spelled_close_attribute (hp ▸ h.fits)
    refine ⟨?_, h.spelled_cons (t := [']']) hc (by simp [hp, Phase.pending]), fits_lead_nil,
      fun a ha => ?_⟩
    · rw [h.text_eq, e, hp]
      simp [Phase.pending]
    · cases ha
      exact .inl rfl

lemma step_eq_ok_iff {c : Char} : step st c = .ok st' ↔ step? st c = some st' := by
  unfold step
  cases step? st c <;> simp

lemma run_cons_of_step? {c : Char} {t : Text} (h : step? st c = some st') :
    run st (c :: t) = run st' t := by
  rw [run_cons, step_eq_ok_iff.mpr h]
  rfl

lemma run_append_of_run {t : Text} (h : run st s = .ok st') : run st (s ++ t) = run st' t := by
  rw [run_append, h]
  rfl

lemma State.Consumed.run {t : Text} (h : st.Consumed s) (ht : run st t = .ok st') :
    st'.Consumed (s ++ t) := by
  induction t generalizing st s with
  | nil =>
    cases ht
    rwa [List.append_nil]
  | cons c t ih =>
    cases hs : step? st c with
    | none =>
      rw [run_cons, Selector.step, hs] at ht
      cases ht
    | some m =>
      rw [run_cons_of_step? hs] at ht
      have := ih (h.step hs) ht
      rwa [List.append_assoc] at this

/-- The chain that a scan ends with is spelled by the grammar, and its text has been read. -/
lemma State.Consumed.reads {cs : Chain} (h : st.Consumed s) (hf : finish? st = some cs) :
    cs.Reads s := by
  obtain ⟨done, phase⟩ := st
  cases phase with
  | lead text =>
    simp only [finish?, Option.ite_none_right_eq_some, List.all_eq_true] at hf
    obtain ⟨hb, e⟩ := hf
    cases e
    exact ⟨h.spelled, text.reverse, fun c hc => hb c (List.mem_reverse.mp hc), h.text_eq⟩
  | name kind last text =>
    cases hf
    refine ⟨h.spelled_cons (t := []) (spelled_close h.fits) (by simp [Phase.pending]), [],
      by simp, ?_⟩
    rw [h.text_eq]
    simp [Phase.pending]
  | _ => cases hf

end StyleNest.Selector
