import StyleNest.Proofs.Selector.Consumed
import StyleNest.Proofs.Text.Trim

/-!
A chain is cut into the components that its grammar gives it.

The scan of a component's text stands behind the component: a bracket is closed at once, a name
when a delimiter or the end of the chain follows. So a chain is cut where its components join, and
there is no other way to read it. No component ends in a blank, so neither does a chain.
-/

namespace StyleNest.Selector

open Text

/-! ### Name characters and delimiters -/

lemma toNat_of_isNameChar {c : Char} (h : isNameChar c = true) :
    0x2D ≤ c.toNat ∧ c.toNat ≤ 0x7A := by
  unfold isNameChar Char.isAlphanum Char.isAlpha Char.isUpper Char.isLower Char.isDigit at h
  simp only [Bool.or_eq_true, Bool.and_eq_true, decide_eq_true_eq, beq_iff_eq, ge_iff_le,
    UInt32.le_iff_toNat_le] at h
  change ((((65 ≤ c.toNat ∧ c.toNat ≤ 90) ∨ (97 ≤ c.toNat ∧ c.toNat ≤ 122)) ∨
    (48 ≤ c.toNat ∧ c.toNat ≤ 57)) ∨ c = '-') ∨ c = '_' at h
  rcases h with (h | rfl) | rfl
  · omega
  · decide
  · decide

lemma isBlank_eq_false_of_isNameChar {c : Char} (h : isNameChar c = true) :
    isBlank c = false := by
  have := toNat_of_isNameChar h
  simp only [isBlank, Bool.or_eq_false_iff, Bool.and_eq_false_iff, decide_eq_false_iff_not,
    beq_eq_false_iff_ne]
  omega

lemma isDelimiter_eq_false_of_isNameChar {c : Char} (h : isNameChar c = true) :
    isDelimiter c = false := by
  have hne : ∀ d : Char, isNameChar d = false → c ≠ d := by
    rintro d hd rfl
    simp [h] at hd
  simp [isDelimiter, isBlank_eq_false_of_isNameChar h, isMarker, isCombinator,
    hne '#' rfl, hne '.' rfl, hne ':' rfl, hne '+' rfl, hne '~' rfl, hne '>' rfl, hne '[' rfl]

/-! ### Ends of components -/

lemma endsFilled_of_names {s : Text} (h : ∀ c ∈ s, isNameChar c = true) : EndsFilled s :=
  endsFilled_of_forall fun c hc => isBlank_eq_false_of_isNameChar (h c hc)

lemma IsTail.endsFilled {s : Text} (h : IsTail s) : EndsFilled s := by
  induction h with
  | nil => exact endsFilled_of_forall (by simp)
  | @char c s hc _ ih =>
    exact EndsFilled.append (s := [c])
      (endsFilled_singleton (isBlank_eq_false_of_isNameChar hc)) ih
  | @group u s _ _ ih =>
    have hclose : EndsFilled (')' :: s) :=
      EndsFilled.append (s := [')']) (endsFilled_singleton rfl) ih
    exact hclose.append_of_ne_nil (by simp) ('(' :: u)

lemma Kind.Spells.endsFilled {kind : Kind} {q : Text} (h : kind.Spells q) : EndsFilled q := by
  have hmark : ∀ {c : Char} {s : Text}, isBlank c = false → EndsFilled s → EndsFilled (c :: s) :=
    fun hc hs => (endsFilled_singleton hc).append hs
  cases h with
  | tag hc hs =>
    refine hmark ?_ (endsFilled_of_names hs)
    rcases hc with hc | rfl
    · exact isBlank_eq_false_of_isNameChar hc
    · rfl
  | id hs => exact hmark rfl (endsFilled_of_names hs.2)
  | className hs => exact hmark rfl (endsFilled_of_names hs.2)
  | pseudoClass hs ht => exact hmark rfl ((endsFilled_of_names hs.2).append ht.endsFilled)
  | pseudoElement hs ht =>
    exact hmark rfl (hmark rfl ((endsFilled_of_names hs.2).append ht.endsFilled))
  | «attribute» => exact (endsFilled_singleton rfl).append_of_ne_nil (by simp) _

lemma Kind.Spells.ne_nil {kind : Kind} {q : Text} (h : kind.Spells q) : q ≠ [] := by
  cases h <;> simp

lemma Component.Spelled.endsFilled {a : Component} (h : a.Spelled) : EndsFilled a.text := by
  obtain ⟨p, q, e, -, hq⟩ := h
  rw [e]
  exact hq.endsFilled.append_of_ne_nil hq.ne_nil p

lemma Chain.Spelled.endsFilled {cs : Chain} (h : cs.Spelled) : EndsFilled cs.text := by
  induction cs with
  | nil => exact endsFilled_of_forall (by simp)
  | cons a cs ih =>
    exact (h.1 a (by simp)).endsFilled.append (ih ⟨fun c hc => h.1 c (by simp [hc]), h.2.tail⟩)

/-! ### Single steps -/

variable {done : Chain} {kind : Kind} {last c : Char} {text : Text}

lemma step?_marker (hc : isNameChar c = true) :
    step? ⟨done, .marker kind text⟩ c = some ⟨done, .name kind c text⟩ := by
  simp [step?, hc]

lemma step?_name (hc : isNameChar c = true) :
    step? ⟨done, .name kind last text⟩ c = some ⟨done, .name kind c (last :: text)⟩ := by
  simp [step?, hc]

/-- Behind a name a delimiter is read as if the component had ended before it. -/
lemma step?_name_of_isDelimiter (hc : isDelimiter c = true) :
    step? ⟨done, .name kind last text⟩ c =
      step? ⟨close kind last text :: done, .lead []⟩ c := by
  have hn : isNameChar c = false := by
    by_contra h
    rw [isDelimiter_eq_false_of_isNameChar (by simpa using h)] at hc
    cases hc
  have hp : c ≠ '(' := by
    rintro rfl
    cases hc
  simp [step?, hn, hp, hc]

lemma begin?_of_isLead (hc : isBlank c = true ∨ isCombinator c = true) :
    begin? text c = some (.lead (c :: text)) := by
  rw [begin?, if_pos (by simpa using hc)]

lemma begin?_tag (hc : isNameChar c = true ∨ c = '*') :
    begin? text c = some (.name .tag c text) := by
  rcases hc with hc | rfl
  · have hd := isDelimiter_eq_false_of_isNameChar hc
    simp only [isDelimiter, isMarker, Bool.or_eq_false_iff, beq_eq_false_iff_ne] at hd
    obtain ⟨⟨⟨hb, ⟨h1, h2⟩, h3⟩, hk⟩, h4⟩ := hd
    simp [begin?, hb, hk, h1, h2, h3, h4, hc]
  · rfl

/-! ### Over a component -/

/-- Characters that a phase only gathers. -/
lemma run_gather {f : Text → Phase} {s : Text}
    (h : ∀ c ∈ s, ∀ x, step? ⟨done, f x⟩ c = some ⟨done, f (c :: x)⟩) :
    run ⟨done, f text⟩ s = .ok ⟨done, f (s.reverse ++ text)⟩ := by
  induction s generalizing text with
  | nil => rfl
  | cons c s ih =>
    rw [run_cons_of_step? (h c (by simp) text), ih fun x hx => h x (by simp [hx])]
    simp

lemma run_lead {s : Text} (hs : IsLead s) :
    run ⟨done, .lead text⟩ s = .ok ⟨done, .lead (s.reverse ++ text)⟩ := by
  refine run_gather (f := .lead) fun c hc x => ?_
  simp only [step?, begin?_of_isLead (hs c hc), Option.map_some]

lemma run_arguments {s : Text} (hs : ')' ∉ s) :
    run ⟨done, .arguments text⟩ s = .ok ⟨done, .arguments (s.reverse ++ text)⟩ := by
  refine run_gather (f := .arguments) fun c hc x => ?_
  have : c ≠ ')' := fun e => hs (e ▸ hc)
  simp [step?, this]

lemma run_quoted {m : Char} {s : Text} (hs : m ∉ s) :
    run ⟨done, .quoted m text⟩ s = .ok ⟨done, .quoted m (s.reverse ++ text)⟩ := by
  refine run_gather (f := .quoted m) fun c hc x => ?_
  have : c ≠ m := fun e => hs (e ▸ hc)
  simp [step?, this]

lemma run_content {filled : Bool} {s : Text} (hs : IsContent s) :
    run ⟨done, .attribute filled text⟩ s =
      .ok ⟨done, .attribute (filled || !s.isEmpty) (s.reverse ++ text)⟩ := by
  induction hs generalizing filled text with
  | nil => simp
  | @char c s hm h h' _ ih =>
    have hc : step? ⟨done, .attribute filled text⟩ c =
        some ⟨done, .attribute true (c :: text)⟩ := by
      simp [step?, hm, h, h']
    rw [run_cons_of_step? hc, ih]
    simp
  | @quoted m u s hm hu _ ih =>
    have ho : step? ⟨done, .attribute filled text⟩ m = some ⟨done, .quoted m (m :: text)⟩ := by
      simp [step?, hm]
    have hc : ∀ x, step? ⟨done, .quoted m x⟩ m = some ⟨done, .attribute true (m :: x)⟩ :=
      fun x => by simp [step?]
    rw [List.cons_append, run_cons_of_step? ho, run_append_of_run (run_quoted hu),
      run_cons_of_step? (hc _), ih]
    simp

/-- From `st` the scan goes over `s` and stands behind a name, `t` being the whole component. -/
def Names (st : State) (s : Text) (done : Chain) (kind : Kind) (t : Text) : Prop :=
  ∃ last text, run st s = .ok ⟨done, .name kind last text⟩ ∧ (last :: text).reverse = t

variable {st : State} {s t u : Text}

lemma Names.snoc (h : Names st s done kind t) (hc : isNameChar c = true) :
    Names st (s ++ [c]) done kind (t ++ [c]) := by
  obtain ⟨last, text, hr, ht⟩ := h
  refine ⟨c, last :: text, ?_, by rw [List.reverse_cons, ht]⟩
  rw [run_append_of_run hr]
  exact run_cons_of_step? (step?_name hc)

lemma Names.append (h : Names st s done kind t) (hu : ∀ c ∈ u, isNameChar c = true) :
    Names st (s ++ u) done kind (t ++ u) := by
  induction u generalizing s t with
  | nil => simpa using h
  | cons c u ih =>
    have := ih (h.snoc (hu c (by simp))) fun x hx => hu x (by simp [hx])
    simpa using this

/-- A group in parentheses goes on with a pseudo class. -/
lemma Names.group (h : Names st s done .pseudoClass t) (hu : ')' ∉ u) :
    Names st (s ++ ('(' :: u ++ [')'])) done .pseudoClass (t ++ ('(' :: u ++ [')'])) := by
  obtain ⟨last, text, hr, ht⟩ := h
  have ho : step? ⟨done, .name .pseudoClass last text⟩ '(' =
      some ⟨done, .arguments ('(' :: last :: text)⟩ := by
    rfl
  have hc : ∀ x, step? ⟨done, .arguments x⟩ ')' = some ⟨done, .name .pseudoClass ')' x⟩ :=
    fun x => by simp [step?]
  refine ⟨')', u.reverse ++ '(' :: last :: text, ?_, by simp [← ht]⟩
  rw [run_append_of_run hr, List.cons_append, run_cons_of_step? ho,
    run_append_of_run (run_arguments hu)]
  exact run_cons_of_step? (hc _)

lemma Names.tail (h : Names st s done .pseudoClass t) (hu : IsTail u) :
    Names st (s ++ u) done .pseudoClass (t ++ u) := by
  induction hu generalizing s t with
  | nil => simpa using h
  | char hc _ ih => simpa using ih (h.snoc hc)
  | group hv _ ih => simpa using ih (h.group hv)

/-! ### Over a chain -/

lemma run_attribute {a : Component} (ha : a.Spelled) (hk : a.kind = .attribute) :
    run ⟨done, .lead []⟩ a.text = .ok ⟨a :: done, .lead []⟩ := by
  obtain ⟨p, q, e, hp, hq⟩ := ha
  rw [hk] at hq
  cases hq with
  | @«attribute» u hu hc =>
    have ho : ∀ x, step? ⟨done, .lead x⟩ '[' = some ⟨done, .attribute false ('[' :: x)⟩ :=
      fun x => rfl
    have hf : ∀ x, step? ⟨done, .attribute true x⟩ ']' =
        some ⟨close .attribute ']' x :: done, .lead []⟩ := fun x => rfl
    have hne : (false || !u.isEmpty) = true := by simpa using hu
    have hclose : close .attribute ']' (u.reverse ++ '[' :: (p.reverse ++ [])) = a := by
      rw [Component.mk.injEq]
      exact ⟨by simp [e], hk.symm⟩
    rw [e, run_append_of_run (run_lead hp), List.cons_append, run_cons_of_step? (ho _),
      run_append_of_run (run_content hc), hne, run_cons_of_step? (hf _), hclose, run_nil]

lemma IsName.eq_cons (h : IsName s) :
    ∃ c u, s = c :: u ∧ isNameChar c = true ∧ ∀ x ∈ u, isNameChar x = true := by
  obtain ⟨c, u, rfl⟩ := List.exists_cons_of_ne_nil h.1
  exact ⟨c, u, rfl, h.2 c (by simp), fun x hx => h.2 x (by simp [hx])⟩

lemma run_marked {p m : Text} (hp : IsLead p) (hm : kind.Marked m) :
    run ⟨done, .lead []⟩ (p ++ m) = .ok ⟨done, .marker kind (p ++ m).reverse⟩ := by
  rw [run_append_of_run (run_lead hp), List.append_nil, List.reverse_append]
  cases hm <;> rfl

/-- From its marker on, a component's name is read to its end. -/
lemma names_marked {p m : Text} (hp : IsLead p) (hm : kind.Marked m) (hs : IsName s) :
    Names ⟨done, .lead []⟩ (p ++ m ++ s) done kind (p ++ m ++ s) := by
  obtain ⟨c, u, rfl, hc, hu⟩ := hs.eq_cons
  have h : Names ⟨done, .lead []⟩ (p ++ m ++ [c]) done kind (p ++ m ++ [c]) := by
    refine ⟨c, (p ++ m).reverse, ?_, by simp⟩
    rw [run_append_of_run (run_marked hp hm)]
    exact run_cons_of_step? (step?_marker hc)
  simpa using h.append hu

lemma names_colon {p : Text} (hp : IsLead p) (hs : IsName s) :
    Names ⟨done, .lead []⟩ (p ++ ':' :: s) done .pseudoClass (p ++ ':' :: s) := by
  obtain ⟨c, u, rfl, hc, hu⟩ := hs.eq_cons
  have ho : ∀ x, step? ⟨done, .lead x⟩ ':' = some ⟨done, .colon (':' :: x)⟩ := fun x => rfl
  have hn : ∀ x, step? ⟨done, .colon x⟩ c = some ⟨done, .name .pseudoClass c x⟩ := fun x => by
    have : c ≠ ':' := by
      rintro rfl
      cases hc
    simp [step?, hc, this]
  have h : Names ⟨done, .lead []⟩ (p ++ [':', c]) done .pseudoClass (p ++ [':', c]) := by
    refine ⟨c, ':' :: (p.reverse ++ []), ?_, by simp⟩
    rw [run_append_of_run (run_lead hp), run_cons_of_step? (ho _), run_cons_of_step? (hn _),
      run_nil]
  simpa using h.append hu

lemma names_tag {p : Text} (hp : IsLead p) (hc : isNameChar c = true ∨ c = '*')
    (hs : ∀ x ∈ s, isNameChar x = true) :
    Names ⟨done, .lead []⟩ (p ++ c :: s) done .tag (p ++ c :: s) := by
  have ho : ∀ x, step? ⟨done, .lead x⟩ c = some ⟨done, .name .tag c x⟩ := fun x => by
    simp only [step?, begin?_tag hc, Option.map_some]
  have h : Names ⟨done, .lead []⟩ (p ++ [c]) done .tag (p ++ [c]) := by
    refine ⟨c, p.reverse ++ [], ?_, by simp⟩
    rw [run_append_of_run (run_lead hp)]
    exact run_cons_of_step? (ho _)
  simpa using h.append hs

lemma names_of_spelled {a : Component} (ha : a.Spelled) (hk : a.kind ≠ .attribute) :
    Names ⟨done, .lead []⟩ a.text done a.kind a.text := by
  obtain ⟨p, q, e, hp, hq⟩ := ha
  rw [e]
  revert hq hk
  generalize a.kind = kind
  intro hk hq
  cases hq with
  | tag hc hs => exact names_tag hp hc hs
  | id hs => simpa using names_marked hp .id hs
  | className hs => simpa using names_marked hp .className hs
  | pseudoClass hs ht => simpa using (names_colon hp hs).tail ht
  | pseudoElement hs ht => simpa using (names_marked hp .pseudoElement hs).tail ht
  | _ => exact absurd rfl hk

/-- The scan of `s` from `st` ends with the chain `cs`. -/
def Ends (st : State) (s : Text) (cs : Chain) : Prop :=
  ∃ st', run st s = .ok st' ∧ finish? st' = some cs

lemma parse_eq_ok_iff_ends {cs : Chain} : parse s = .ok cs ↔ Ends .initial s cs := by
  unfold parse Ends
  cases run .initial s with
  | error c => simp
  | ok st => cases h : finish? st <;> simp [h]

lemma Ends.of_run {st' : State} {cs : Chain} (h : Ends st' t cs) (hr : run st s = .ok st') :
    Ends st (s ++ t) cs := by
  obtain ⟨st'', ht, hf⟩ := h
  refine ⟨st'', ?_, hf⟩
  rw [run_append_of_run hr]
  exact ht

/-- Behind a name, what may follow is read as if the component had ended. -/
lemma ends_of_names {a : Component} {cs : Chain}
    (ha : Names ⟨done, .lead []⟩ a.text done a.kind a.text)
    (ht : t = [] ∨ IsDelimited t) (h : Ends ⟨a :: done, .lead []⟩ t cs) :
    Ends ⟨done, .lead []⟩ (a.text ++ t) cs := by
  obtain ⟨last, text, hr, e⟩ := ha
  have hclose : close a.kind last text = a := by
    rw [Component.mk.injEq]
    exact ⟨e, rfl⟩
  refine Ends.of_run ?_ hr
  obtain ⟨st', hs, hf⟩ := h
  cases t with
  | nil =>
    cases hs
    refine ⟨_, rfl, ?_⟩
    change some (close a.kind last text :: done).reverse = some cs
    rw [hclose]
    exact hf
  | cons c t =>
    have hc : isDelimiter c = true := by simpa [IsDelimited] using ht
    refine ⟨st', ?_, hf⟩
    rw [run_cons, step, step?_name_of_isDelimiter hc, hclose]
    exact hs

/-- What follows a name in a chain ends it. -/
lemma isDelimited_of_spelled {a : Component} {cs : Chain} {w : Text}
    (h : Chain.Spelled (a :: cs)) (hk : a.kind ≠ .attribute) (hw : ∀ c ∈ w, isBlank c = true) :
    Chain.text cs ++ w = [] ∨ IsDelimited (Chain.text cs ++ w) := by
  cases cs with
  | nil =>
    cases w with
    | nil => exact .inl rfl
    | cons c w =>
      refine .inr ⟨c, rfl, ?_⟩
      simp [isDelimiter, hw c (by simp)]
  | cons b cs =>
    have hb : IsDelimited b.text := (List.isChain_cons_cons.mp h.2).1.resolve_left hk
    rw [Chain.text_cons, List.append_assoc]
    exact .inr (hb.append _)

/-- A chain is cut into its components, whatever was cut off before. -/
lemma ends_of_spelled {cs : Chain} {w : Text} (h : Chain.Spelled cs)
    (hw : ∀ c ∈ w, isBlank c = true) :
    Ends ⟨done, .lead []⟩ (Chain.text cs ++ w) (done.reverse ++ cs) := by
  induction cs generalizing done with
  | nil =>
    refine ⟨⟨done, .lead (w.reverse ++ [])⟩, run_lead fun c hc => .inl (hw c hc), ?_⟩
    simpa [finish?] using hw
  | cons a cs ih =>
    have ha := h.1 a (by simp)
    have hcs : Chain.Spelled cs := ⟨fun x hx => h.1 x (by simp [hx]), h.2.tail⟩
    have hrest : Ends ⟨a :: done, .lead []⟩ (Chain.text cs ++ w) ((a :: done).reverse ++ cs) :=
      ih hcs
    rw [List.reverse_cons, List.append_assoc, List.singleton_append] at hrest
    rw [Chain.text_cons, List.append_assoc]
    by_cases hk : a.kind = .attribute
    · exact hrest.of_run (run_attribute ha hk)
    · exact ends_of_names (names_of_spelled ha hk) (isDelimited_of_spelled h hk hw) hrest

/-! ### The chains of a text -/

lemma reads_of_parse {cs : Chain} (h : parse s = .ok cs) : cs.Reads s := by
  obtain ⟨st, hr, hf⟩ := parse_eq_ok_iff_ends.mp h
  exact (consumed_initial.run hr).reads hf

lemma parse_of_reads {cs : Chain} (h : cs.Reads s) : parse s = .ok cs := by
  obtain ⟨hs, w, hw, rfl⟩ := h
  exact parse_eq_ok_iff_ends.mpr (ends_of_spelled hs hw)

lemma source_of_parse {e : ChainError} (h : parse s = .error e) : e.source = s := by
  unfold parse at h
  split at h
  · cases h
    rfl
  · split at h <;> cases h
    rfl

/-- **A text reads as a chain in at most one way, and the scan finds it.** A text that reads as no
chain is refused, and the refusal names it. -/
theorem parse_eq_ok_iff_reads (s : Text) :
    (∀ cs : Chain, parse s = .ok cs ↔ cs.Reads s) ∧
      (∀ cs ds : Chain, cs.Reads s → ds.Reads s → cs = ds) ∧
      ((∀ cs : Chain, ¬ cs.Reads s) ↔ ∃ found, parse s = .error ⟨found, s⟩) := by
  refine ⟨fun cs => ⟨reads_of_parse, parse_of_reads⟩, fun cs ds hc hd => ?_, fun h => ?_, ?_⟩
  · have e := parse_of_reads hc
    rw [parse_of_reads hd] at e
    cases e
    rfl
  · cases hp : parse s with
    | ok cs => exact absurd (reads_of_parse hp) (h cs)
    | error e => exact ⟨e.found, by rw [← source_of_parse hp]⟩
  · rintro ⟨found, hp⟩ cs hc
    rw [parse_of_reads hc] at hp
    cases hp

end StyleNest.Selector
