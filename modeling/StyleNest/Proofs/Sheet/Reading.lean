import StyleNest.Proofs.Sheet.Consumed

/-!
A sheet that follows the grammar is read into the rules that the grammar gives it.

Each piece of a rule takes the scan from one phase to another and leaves the finished rules alone,
so the pieces are put together one behind the other. With what a scan has read, the grammar is
exactly what the scan accepts.
-/

namespace StyleNest.Sheet

open Text Selector

variable {phase phase' phase'' : Phase} {s t : Text} {r : Rule}

/-! ### Pieces of a rule -/

/-- Over `s` the scan goes from one phase to another within a rule. -/
def Enters (phase : Phase) (s : Text) (phase' : Phase) : Prop :=
  ∀ rules place, run ⟨rules, phase, place⟩ s = .ok ⟨rules, phase', place.after s⟩

/-- Over `s` the scan goes from a phase to the end of its rule. -/
def Closes (phase : Phase) (s : Text) (r : Rule) : Prop :=
  ∀ rules place, run ⟨rules, phase, place⟩ s = .ok ⟨r :: rules, .outside, place.after s⟩

lemma run_append_of_run {st st' : State} (h : run st s = .ok st') :
    run st (s ++ t) = run st' t := by
  rw [run_append, h]
  rfl

lemma Enters.append (h : Enters phase s phase') (ht : Enters phase' t phase'') :
    Enters phase (s ++ t) phase'' := by
  intro rules place
  rw [run_append_of_run (h rules place), ht, Position.after_append]

lemma Enters.closes (h : Enters phase s phase') (ht : Closes phase' t r) :
    Closes phase (s ++ t) r := by
  intro rules place
  rw [run_append_of_run (h rules place), ht, Position.after_append]

lemma enters_nil : Enters phase [] phase := fun _ _ => rfl

lemma enters_singleton {c : Char} (h : phase.move c = .enter phase') : Enters phase [c] phase' := by
  intro rules place
  rw [run_cons, step, h]
  rfl

lemma closes_singleton {c : Char} (h : phase.move c = .close r) : Closes phase [c] r := by
  intro rules place
  rw [run_cons, step, h]
  rfl

/-- A phase that skips one blank skips all of them. -/
lemma enters_spaces (h : ∀ c, isSpace c = true → phase.move c = .enter phase)
    (hs : IsSpaces s) : Enters phase s phase := by
  induction s with
  | nil => exact enters_nil
  | cons c s ih =>
    exact (enters_singleton (h c (hs c (by simp)))).append (ih fun x hx => hs x (by simp [hx]))

/-- Characters that a phase gathers. -/
lemma enters_gather {f : Text → Phase} {text : Text}
    (h : ∀ c ∈ s, ∀ x, (f x).move c = .enter (f (c :: x))) :
    Enters (f text) s (f (s.reverse ++ text)) := by
  induction s generalizing text with
  | nil => exact enters_nil
  | cons c s ih =>
    have hc : Enters (f text) [c] (f (c :: text)) := enters_singleton (h c (by simp) text)
    have hs : Enters (f (c :: text)) s (f (s.reverse ++ c :: text)) :=
      ih fun x hx => h x (by simp [hx])
    simpa using hc.append hs

lemma isPropertyChar_eq_false_of_isSpace {c : Char} (h : isSpace c = true) :
    isPropertyChar c = false := by
  simp only [isSpace, Bool.or_eq_true, beq_iff_eq] at h
  rcases h with ((rfl | rfl) | rfl) | rfl <;> rfl

/-! ### Selectors -/

/-- A chain begins where its first character may stand and goes on to a comma or a brace. -/
lemma enters_chain {done : List Chain}
    (hp : ∀ c, isSelectorChar c = true → isSpace c = false →
      phase.move c = .enter (.selector done [c])) (ht : IsChainText t) :
    Enters phase t (.selector done t.reverse) := by
  obtain ⟨hs, c, hc, hn⟩ := ht
  cases t with
  | nil => cases hc
  | cons d t =>
    cases hc
    have h := enters_singleton (hp c (hs c (by simp)) hn)
    have ht : Enters (.selector done [c]) t (.selector done (t.reverse ++ [c])) :=
      enters_gather (f := .selector done) fun x hx y => by simp [Phase.move, hs x (by simp [hx])]
    simpa using h.append ht

lemma endChain_of_parse {done : List Chain} {c : Chain} (next : List Chain → Phase)
    (h : Selector.parse (trim t) = .ok c) :
    endChain done t.reverse next = .enter (next (c :: done)) := by
  rw [endChain, List.reverse_reverse, h]

lemma enters_comma {done : List Chain} {c : Chain} (h : Selector.parse (trim t) = .ok c) :
    Enters (.selector done t.reverse) [','] (.comma (c :: done)) := by
  refine enters_singleton ?_
  rw [← endChain_of_parse .comma h]
  rfl

lemma enters_brace {done : List Chain} {c : Chain} (h : Selector.parse (trim t) = .ok c) :
    Enters (.selector done t.reverse) ['{'] (.block ⟨c :: done, []⟩) := by
  refine enters_singleton ?_
  rw [← endChain_of_parse (fun cs => .block ⟨cs, []⟩) h]
  rfl

lemma enters_list {cs done : List Chain}
    (hp : ∀ c, isSelectorChar c = true → isSpace c = false →
      phase.move c = .enter (.selector done [c])) (h : ListReads t cs) :
    Enters phase (t ++ ['{']) (.block ⟨cs.reverse ++ done, []⟩) := by
  induction h generalizing phase done with
  | one ht hc => exact (enters_chain hp ht).append (enters_brace hc)
  | @cons t w s c cs ht hc hw _ ih =>
    have hcomma := (enters_chain hp ht).append (enters_comma hc)
    have hskip : Enters (.comma (c :: done)) w (.comma (c :: done)) :=
      enters_spaces (fun x hx => by simp [Phase.move, hx]) hw
    have hrest : Enters (.comma (c :: done)) (s ++ ['{'])
        (.block ⟨cs.reverse ++ c :: done, []⟩) :=
      ih fun x hx hn => by simp [Phase.move, hx, hn]
    simpa using (hcomma.append hskip).append hrest

/-! ### Declarations -/

lemma enters_name {d : Draft} {name : Text} (hn : IsPropertyName name) :
    Enters (.block d) name (.inName d name.reverse) := by
  obtain ⟨hne, hs⟩ := hn
  obtain ⟨c, t, rfl⟩ := List.exists_cons_of_ne_nil hne
  have hc : isSpace c ≠ true := fun h => by
    have := hs c (by simp)
    rw [isPropertyChar_eq_false_of_isSpace h] at this
    cases this
  have h : Enters (.block d) [c] (.inName d [c]) :=
    enters_singleton (by simp [Phase.move, hc, hs c (by simp)])
  have ht : Enters (.inName d [c]) t (.inName d (t.reverse ++ [c])) :=
    enters_gather (f := .inName d) fun x hx y => by simp [Phase.move, hs x (by simp [hx])]
  simpa using h.append ht

/-- Blanks may stand between a name and its colon. -/
lemma enters_colon {d : Draft} {name u : Text} (hu : IsSpaces u) :
    Enters (.inName d name) (u ++ [':']) (.afterColon d name) := by
  cases u with
  | nil => exact enters_singleton rfl
  | cons c u =>
    have hc := hu c (by simp)
    have h : Enters (.inName d name) [c] (.afterName d name) :=
      enters_singleton (by simp [Phase.move, hc, isPropertyChar_eq_false_of_isSpace hc])
    have hs : Enters (.afterName d name) u (.afterName d name) :=
      enters_spaces (fun x hx => by simp [Phase.move, hx]) fun x hx => hu x (by simp [hx])
    have hcolon : Enters (.afterName d name) [':'] (.afterColon d name) := enters_singleton rfl
    simpa using (h.append hs).append hcolon

/-- At the end of a declaration a semicolon takes it and a brace ends the rule with it. -/
def Phase.Declares (phase : Phase) (d : Draft) : Prop :=
  phase.move ';' = .enter (.block d) ∧ phase.move '}' = .close d.rule

lemma enters_value {d : Draft} {value : Text} (name : Text) (hv : IsValue value) :
    ∃ phase, Enters (.afterColon d name) value phase ∧
      phase.Declares (d.declare name value.reverse) := by
  obtain ⟨hh, h1, h2⟩ := hv
  cases value with
  | nil => exact ⟨.afterColon d name, enters_nil, rfl, rfl⟩
  | cons c t =>
    rw [List.mem_cons, not_or] at h1 h2
    have hc : isSpace c = false := hh c rfl
    have h : Enters (.afterColon d name) [c] (.inValue d name [c]) :=
      enters_singleton (by simp [Phase.move, hc, Ne.symm h1.1, Ne.symm h2.1])
    have ht : Enters (.inValue d name [c]) t (.inValue d name (t.reverse ++ [c])) :=
      enters_gather (f := .inValue d name) fun x hx y => by
        have hx1 : x ≠ ';' := fun e => h1.2 (e ▸ hx)
        have hx2 : x ≠ '}' := fun e => h2.2 (e ▸ hx)
        simp [Phase.move, hx1, hx2]
    refine ⟨.inValue d name (c :: t).reverse, ?_, rfl, rfl⟩
    simpa using h.append ht

lemma enters_declaration {d : Draft} {t : Text} {e : Declaration} (h : e.Reads t) :
    ∃ phase, Enters (.block d) t phase ∧
      phase.Declares { d with declarations := e :: d.declarations } := by
  cases h with
  | @mk name u w value hn hu hw hv =>
    have hcolon := (enters_name (d := d) hn).append (enters_colon hu)
    have hskip : Enters (.afterColon d name.reverse) w (.afterColon d name.reverse) :=
      enters_spaces (fun x hx => by simp [Phase.move, hx]) hw
    obtain ⟨phase, hp, hd⟩ := enters_value name.reverse hv
    refine ⟨phase, ?_, by simpa [Draft.declare] using hd⟩
    simpa using (hcolon.append hskip).append hp

/-! ### Rules -/

lemma enters_block {d : Draft} (hs : IsSpaces s) : Enters (.block d) s (.block d) :=
  enters_spaces (fun x hx => by simp [Phase.move, hx]) hs

lemma closes_body {d : Draft} {ds : List Declaration} (h : BodyReads s ds) :
    Closes (.block d) (s ++ ['}'])
      { d with declarations := ds.reverse ++ d.declarations }.rule := by
  induction h generalizing d with
  | nil => exact closes_singleton rfl
  | last ht =>
    obtain ⟨phase, hp, -, hc⟩ := enters_declaration (d := d) ht
    simpa using hp.closes (closes_singleton hc)
  | @cons t w s e ds ht hw _ ih =>
    obtain ⟨phase, hp, hs, -⟩ := enters_declaration (d := d) ht
    have hsemi := hp.append (enters_singleton hs)
    simpa using (hsemi.append (enters_block hw)).closes ih

lemma closes_block {w : Text} {ds : List Declaration} (cs : List Chain) (hw : IsSpaces w)
    (hs : BodyReads s ds) : Closes (.block ⟨cs.reverse, []⟩) (w ++ s ++ ['}']) ⟨cs, ds⟩ := by
  have h := (enters_block (d := ⟨cs.reverse, []⟩) hw).closes (closes_body hs)
  simpa [Draft.rule] using h

lemma closes_rule (h : r.Reads s) : Closes .outside s r := by
  cases h with
  | bare hw hs =>
    have hbrace : Enters .outside ['{'] (.block ⟨[], []⟩) := enters_singleton rfl
    simpa using hbrace.closes (closes_block [] hw hs)
  | selecting ht hw hs =>
    have hlist : Enters .outside _ (.block ⟨_ ++ [], []⟩) :=
      enters_list (fun c hc hn => by simp [Phase.move, hc, hn]) ht
    rw [List.append_nil] at hlist
    simpa using hlist.closes (closes_block _ hw hs)

/-! ### Sheets -/

/-- Over `s` the scan goes from the end of one rule to the end of another, through `rs`. -/
def Yields (s : Text) (rs : List Rule) : Prop :=
  ∀ rules place,
    run ⟨rules, .outside, place⟩ s = .ok ⟨rs.reverse ++ rules, .outside, place.after s⟩

lemma Closes.yields (h : Closes .outside s r) : Yields s [r] := h

lemma yields_spaces (hs : IsSpaces s) : Yields s [] :=
  enters_spaces (fun c hc => by simp [Phase.move, hc]) hs

lemma Yields.append {rs rs' : List Rule} (h : Yields s rs) (ht : Yields t rs') :
    Yields (s ++ t) (rs ++ rs') := by
  intro rules place
  rw [run_append_of_run (h rules place), ht, Position.after_append, List.reverse_append,
    List.append_assoc]

lemma Yields.parse {rs : List Rule} (h : Yields s rs) : parse s = .ok rs := by
  unfold Sheet.parse
  rw [show State.initial = ⟨[], .outside, .start⟩ from rfl, h]
  simp [Except.bind, finish]

lemma yields_of_reads {rs : List Rule} (h : Reads s rs) : Yields s rs := by
  induction h with
  | nil hw => exact yields_spaces hw
  | cons hw hr _ ih => exact ((yields_spaces hw).append (closes_rule hr).yields).append ih

lemma parse_of_reads {rs : List Rule} (h : Reads s rs) : parse s = .ok rs :=
  (yields_of_reads h).parse

lemma reads_of_parse {rs : List Rule} (h : parse s = .ok rs) : Reads s rs := by
  unfold parse at h
  cases hr : run .initial s with
  | error e =>
    rw [hr] at h
    cases h
  | ok st =>
    rw [hr] at h
    exact (consumed_initial.run hr).reads h

/-- **A sheet is accepted exactly when it follows the grammar, with the rules of the grammar.**
Every other text is refused. -/
theorem parse_sheet_iff_reads (s : Text) :
    (∀ rs : List Rule, parse s = .ok rs ↔ Reads s rs) ∧
      ((∀ rs : List Rule, ¬ Reads s rs) ↔ ∃ e, parse s = .error e) := by
  refine ⟨fun rs => ⟨reads_of_parse, parse_of_reads⟩, fun h => ?_, ?_⟩
  · cases hp : parse s with
    | ok rs => exact absurd (reads_of_parse hp) (h rs)
    | error e => exact ⟨e, rfl⟩
  · rintro ⟨e, hp⟩ rs hr
    rw [parse_of_reads hr] at hp
    cases hp

end StyleNest.Sheet
