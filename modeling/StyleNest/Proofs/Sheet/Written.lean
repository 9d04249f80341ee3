import StyleNest.Proofs.Sheet.Alphabet
import StyleNest.Tree

/-!
What is written of a sheet is read again.

The text of a chain ends in no blank, so whatever blanks follow it, it is cut off as it stands and
taken apart into the same components. Written declarations take the scan around its block, and a
header inside a block stops it.
-/

namespace StyleNest.Sheet

open Text Selector

/-! ### Chains -/

namespace IsPlainChain

variable {chain : Chain} {w : Text}

lemma ne_nil (h : IsPlainChain chain) : chain ≠ [] := by
  rintro rfl
  obtain ⟨c, hc, -⟩ := h.head
  cases hc

/-- The beginning of a chain is a chain. -/
lemma of_append {cs ds : Chain} (h : IsPlainChain (cs ++ ds)) (hne : cs ≠ []) :
    IsPlainChain cs := by
  obtain ⟨⟨hs, hj⟩, hchars, c, hc, hb⟩ := h
  rw [Chain.text_append] at hchars hc
  refine ⟨⟨fun a ha => hs a (by simp [ha]), hj.left_of_append⟩,
    fun x hx => hchars x (by simp [hx]), c, ?_, hb⟩
  obtain ⟨a, cs, rfl⟩ := List.exists_cons_of_ne_nil hne
  obtain ⟨x, u, e⟩ := List.exists_cons_of_ne_nil a.text_ne_nil
  simpa [e] using hc

lemma parse_text (h : IsPlainChain chain) (hw : IsSpaces w) :
    Selector.parse (trim (chain.text ++ w)) = .ok chain := by
  rw [trim_append_of_blank h.head h.spelled.endsFilled fun c hc => isBlank_of_isSpace (hw c hc)]
  exact Selector.parse_of_reads ⟨h.spelled, [], by simp, by simp⟩

lemma isChainText (h : IsPlainChain chain) (hw : IsSpaces w) : IsChainText (chain.text ++ w) := by
  obtain ⟨c, hc, hb⟩ := h.head
  refine ⟨fun x hx => ?_, c, by rw [List.head?_append, hc]; rfl, ?_⟩
  · rcases List.mem_append.mp hx with hx | hx
    · exact h.chars x hx
    · simp [isSelectorChar, hw x hx]
  · by_contra hs
    rw [isBlank_of_isSpace (by simpa using hs)] at hb
    cases hb

/-- A chain and the brace behind it open a block. -/
lemma enters_head (h : IsPlainChain chain) (hw : IsSpaces w) :
    Enters .outside (chain.text ++ w ++ ['{']) (.block ⟨[chain], []⟩) := by
  have hlist : Enters .outside _ (.block ⟨[chain].reverse ++ [], []⟩) :=
    enters_list (fun c hc hn => by simp [Phase.move, hc, hn])
      (.one (h.isChainText hw) (h.parse_text hw))
  exact hlist

end IsPlainChain

/-! ### Declarations -/

/-- The draft with more declarations. -/
def Draft.push (d : Draft) (es : List Declaration) : Draft :=
  { d with declarations := es.reverse ++ d.declarations }

lemma enters_written {d : Draft} {e : Declaration} (he : e.Plain) :
    Enters (.block d) e.written (.block (d.push [e])) := by
  have hread : e.Reads (e.name ++ [] ++ ':' :: [' '] ++ e.value) :=
    .mk he.name isSpaces_nil (isSpaces_singleton rfl) he.value
  obtain ⟨phase, hp, hsemi, -⟩ := enters_declaration (d := d) hread
  have h := hp.append (enters_singleton hsemi)
  simpa [Declaration.written, Draft.push] using h

/-- Declarations are read whatever blanks stand around them. -/
lemma enters_declarations {d : Draft} {es : List Declaration} (hes : ∀ e ∈ es, e.Plain)
    {lead trail : Text} (hl : IsSpaces lead) (ht : IsSpaces trail) :
    Enters (.block d) (es.flatMap fun e => lead ++ e.written ++ trail) (.block (d.push es)) := by
  induction es generalizing d with
  | nil => exact enters_nil
  | cons e es ih =>
    have hfirst := ((enters_block hl).append (enters_written (hes e (by simp)))).append
      (enters_block (d := d.push [e]) ht)
    have hrest := ih (d := d.push [e]) fun x hx => hes x (by simp [hx])
    have h := hfirst.append hrest
    simpa [Draft.push] using h

/-! ### Flat blocks -/

lemma yields_flatBlock {chain : Chain} {ds : List Declaration} (hc : IsPlainChain chain)
    (hd : ∀ d ∈ ds, d.Plain) : Yields (flatBlock chain.text ds) [⟨[chain], ds⟩] := by
  have hhead := hc.enters_head isSpaces_nil
  have hbody := enters_declarations (d := ⟨[chain], []⟩) hd isSpaces_nil isSpaces_nil
  have hclose : Closes (.block (Draft.push ⟨[chain], []⟩ ds)) ['}'] ⟨[chain], ds⟩ :=
    closes_singleton (by simp [Phase.move, Draft.rule, Draft.push, isSpace, isPropertyChar])
  have h := (hhead.append hbody).closes hclose
  rw [flatBlock]
  exact Closes.yields (by simpa using h)

/-! ### Headers inside a block -/

/-- Over `s` the scan comes to a character that may not follow. -/
def Refuses (phase : Phase) (s : Text) : Prop :=
  ∀ rules place, ∃ c place', run ⟨rules, phase, place⟩ s = .error (.unexpected (some c) place')

variable {phase phase' : Phase} {s t : Text}

lemma refuses_singleton {c : Char} (h : phase.move c = .refuse) : Refuses phase [c] := by
  intro rules place
  refine ⟨c, place, ?_⟩
  rw [run_cons, step, h]
  rfl

lemma Refuses.append (h : Refuses phase s) (t : Text) : Refuses phase (s ++ t) := by
  intro rules place
  obtain ⟨c, place', e⟩ := h rules place
  exact ⟨c, place', by rw [run_append, e]; rfl⟩

lemma Enters.refuses (h : Enters phase s phase') (ht : Refuses phase' t) :
    Refuses phase (s ++ t) := by
  intro rules place
  rw [run_append_of_run (h rules place)]
  exact ht rules (place.after s)

lemma Yields.refuses {rs : List Rule} (h : Yields s rs) (ht : Refuses .outside t) :
    Refuses .outside (s ++ t) := by
  intro rules place
  rw [run_append_of_run (h rules place)]
  exact ht (rs.reverse ++ rules) (place.after s)

lemma Refuses.parse (h : Refuses .outside s) :
    ∃ c place, Sheet.parse s = .error (.unexpected (some c) place) := by
  obtain ⟨c, place, e⟩ := h [] .start
  refine ⟨c, place, ?_⟩
  rw [Sheet.parse, show State.initial = ⟨[], .outside, .start⟩ from rfl, e]
  rfl

/-- Behind a name no colon comes before the brace. -/
lemma refuses_afterName {d : Draft} {name : Text} (hs : ':' ∉ s) :
    Refuses (.afterName d name) (s ++ ['{']) := by
  induction s with
  | nil => exact refuses_singleton rfl
  | cons c s ih =>
    rw [List.mem_cons, not_or] at hs
    by_cases hc : isSpace c = true
    · have h : Enters (.afterName d name) [c] (.afterName d name) :=
        enters_singleton (by simp [Phase.move, hc])
      exact h.refuses (ih hs.2)
    · have h : Refuses (.afterName d name) [c] :=
        refuses_singleton (by simp [Phase.move, hc, Ne.symm hs.1])
      exact h.append _

/-- What begins like the name of a declaration is refused when no colon follows. -/
lemma refuses_inName {d : Draft} {name : Text} (hs : ':' ∉ s) :
    Refuses (.inName d name) (s ++ ['{']) := by
  induction s generalizing name with
  | nil => exact refuses_singleton rfl
  | cons c s ih =>
    rw [List.mem_cons, not_or] at hs
    by_cases hp : isPropertyChar c = true
    · have h : Enters (.inName d name) [c] (.inName d (c :: name)) :=
        enters_singleton (by simp [Phase.move, hp])
      exact h.refuses (ih hs.2)
    · by_cases hc : isSpace c = true
      · have h : Enters (.inName d name) [c] (.afterName d name) :=
          enters_singleton (by simp [Phase.move, hp, hc])
        exact h.refuses (refuses_afterName hs.2)
      · have h : Refuses (.inName d name) [c] :=
          refuses_singleton (by simp [Phase.move, hp, hc, Ne.symm hs.1])
        exact h.append _

/-- A block does not hold what is neither a blank nor its end nor begins with `name:`. -/
lemma refuses_block {d : Draft} {c : Char} (hn : isSpace c = false) (hb : c ≠ '}')
    (hc : isPropertyChar c = true → ':' ∉ s) : Refuses (.block d) (c :: s ++ ['{']) := by
  by_cases hp : isPropertyChar c = true
  · have h : Enters (.block d) [c] (.inName d [c]) :=
      enters_singleton (by simp [Phase.move, hn, hp])
    exact h.refuses (refuses_inName (hc hp))
  · have h : Refuses (.block d) [c] := refuses_singleton (by simp [Phase.move, hn, hp, hb])
    exact h.append _

end StyleNest.Sheet
