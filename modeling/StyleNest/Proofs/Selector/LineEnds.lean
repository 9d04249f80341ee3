import StyleNest.Proofs.Selector.Decomposition
import StyleNest.Proofs.Text.LineEnds

/-!
Chains with their line ends made one.

Two scans go side by side, one over a text and one over the text with its line ends made one. Both
characters of a line end are blanks and nothing else, so a scan treats them alike and never cuts
between them: at a carriage return both scans take a step, and at its line feed the second one has
nothing more to read.
-/

namespace StyleNest

open Text

namespace Selector

/-! ### Line ends in what a scan holds -/

def Component.unified (c : Component) : Component :=
  ⟨unifyNewlines c.text, c.kind, unifyNewlines_ne_nil c.text_ne_nil⟩

def Chain.unified (chain : Chain) : Chain := chain.map Component.unified

def Phase.unified : Phase → Phase
  | .lead text => .lead (unifyBack text)
  | .marker kind text => .marker kind (unifyBack text)
  | .colon text => .colon (unifyBack text)
  | .name kind last text => .name kind last (unifyBack text)
  | .arguments text => .arguments (unifyBack text)
  | .attribute filled text => .attribute filled (unifyBack text)
  | .quoted mark text => .quoted mark (unifyBack text)

def State.unified (st : State) : State := ⟨Chain.unified st.done, st.phase.unified⟩

/-- The last character of a component that may end is no blank. -/
lemma isBlank_last_of_fits {kind : Kind} {last : Char} {text : Text}
    (h : (Phase.name kind last text).Fits) : isBlank last = false := by
  obtain ⟨p, q, e, -, -, hq⟩ := h
  have e' : (last :: text).reverse = p ++ q := e
  have hfilled : EndsFilled (p ++ q) := hq.endsFilled.append_of_ne_nil hq.ne_nil p
  rw [← e'] at hfilled
  exact hfilled last (by simp)

lemma unifyBack_name {kind : Kind} {last : Char} {text : Text}
    (h : (Phase.name kind last text).Fits) :
    unifyBack (last :: text) = last :: unifyBack text := by
  have hb := isBlank_last_of_fits h
  have hreturn : last ≠ '\r' := by
    rintro rfl
    cases hb
  have hfeed : last ≠ '\n' := by
    rintro rfl
    cases hb
  rw [unifyBack_cons fun e => absurd e hfeed, unifyNewline_of_ne hreturn]

lemma unified_close (kind : Kind) {last : Char} {text : Text}
    (h : unifyBack (last :: text) = last :: unifyBack text) :
    (close kind last text).unified = close kind last (unifyBack text) := by
  rw [Component.mk.injEq]
  refine ⟨?_, rfl⟩
  change unifyNewlines (last :: text).reverse = (last :: unifyBack text).reverse
  rw [← h, reverse_unifyBack]

/-! ### Single steps -/

variable {st m : State} {c : Char} {s text : Text}

lemma fits_of_step? (hf : st.phase.Fits) (h : step? st c = some m) : m.phase.Fits := by
  cases extends_of_step? h with
  | goesOn _ hgo => exact hgo hf
  | delimits _ _ _ hnew => exact hnew
  | closes => exact fits_lead_nil

/-- What is pending ends with the character that was read last. -/
lemma getLast?_pending_of_step? (h : step? st c = some m) :
    ∀ d ∈ m.phase.pending.getLast?, d = c := by
  intro d hd
  cases extends_of_step? h with
  | goesOn e _ => simpa [e, eq_comm] using hd
  | delimits _ _ e _ => simpa [e, eq_comm] using hd
  | closes => simp [Phase.pending] at hd

lemma begin?_unified (text : Text) (hc : c ≠ '\r') (ht : c = '\n' → text.head? ≠ some '\r') :
    begin? (unifyBack text) c = (begin? text c).map Phase.unified := by
  have hcons : unifyBack (c :: text) = c :: unifyBack text := by
    rw [unifyBack_cons ht, unifyNewline_of_ne hc]
  unfold begin?
  split_ifs <;> simp [Phase.unified, hcons]

lemma head?_of_pending {phase : Phase} (hn : c = '\n' → phase.pending.getLast? ≠ some '\r')
    (hp : phase.pending = text.reverse) : c = '\n' → text.head? ≠ some '\r' := by
  rwa [hp, List.getLast?_reverse] at hn

/-- A character other than a carriage return does the same in both scans, unless it is the line
feed of a carriage return. -/
lemma step?_unified (hf : st.phase.Fits) (hc : c ≠ '\r')
    (hn : c = '\n' → st.phase.pending.getLast? ≠ some '\r') :
    step? st.unified c = (step? st c).map State.unified := by
  obtain ⟨done, phase⟩ := st
  have hcons : ∀ text : Text, phase.pending = text.reverse →
      unifyBack (c :: text) = c :: unifyBack text := fun text hp => by
    rw [unifyBack_cons (head?_of_pending hn hp), unifyNewline_of_ne hc]
  cases phase with
  | lead text =>
    have hb := begin?_unified text hc (head?_of_pending hn rfl)
    simp [step?, State.unified, Phase.unified, hb, Function.comp_def]
  | marker kind text =>
    simp only [step?, State.unified, Phase.unified]
    split_ifs <;> rfl
  | colon text =>
    simp only [step?, State.unified, Phase.unified]
    split_ifs <;> simp [State.unified, Phase.unified, hcons _ rfl]
  | name kind last text =>
    have hlast := unifyBack_name hf
    have hname : unifyBack (c :: last :: text) = c :: last :: unifyBack text := by
      rw [hcons _ rfl, hlast]
    have hbegin : begin? [] c = (begin? [] c).map Phase.unified :=
      begin?_unified [] hc (by simp)
    have hclose := unified_close kind hlast
    simp only [step?, State.unified, Phase.unified]
    split_ifs
    · simp [State.unified, Phase.unified, hlast]
    · simp [State.unified, Phase.unified, hname]
    · conv_lhs => rw [hbegin]
      simp [State.unified, Chain.unified, hclose, Function.comp_def]
    · rfl
  | arguments text =>
    simp only [step?, State.unified, Phase.unified]
    split_ifs <;> simp [State.unified, Phase.unified, hcons _ rfl]
  | «attribute» filled text =>
    simp only [step?, State.unified, Phase.unified]
    have hclose := unified_close .attribute (hcons text rfl)
    split_ifs <;> simp [State.unified, Phase.unified, Chain.unified, hcons _ rfl, hclose]
  | quoted m text =>
    simp only [step?, State.unified, Phase.unified]
    split_ifs <;> simp [State.unified, Phase.unified, hcons _ rfl]

/-- What either character of a line end does, as a blank that it is. -/
def State.breakLine? (st : State) (c : Char) : Option State :=
  match st.phase with
  | .lead text => some ⟨st.done, .lead (c :: text)⟩
  | .name kind last text => some ⟨close kind last text :: st.done, .lead [c]⟩
  | .arguments text => some ⟨st.done, .arguments (c :: text)⟩
  | .attribute _ text => some ⟨st.done, .attribute true (c :: text)⟩
  | .quoted mark text => some ⟨st.done, .quoted mark (c :: text)⟩
  | _ => none

/-- Quoted text stands in marks. -/
def Phase.InMarks (phase : Phase) : Prop := ∀ m text, phase = .quoted m text → isMark m = true

lemma inMarks_of_fits {phase : Phase} (h : phase.Fits) : phase.InMarks := by
  rintro m text rfl
  obtain ⟨p, q, -, -, u, v, -, -, hm, -⟩ := h
  exact hm

lemma step?_lineEnd (hc : c = '\r' ∨ c = '\n') (hm : st.phase.InMarks) :
    step? st c = st.breakLine? c := by
  obtain ⟨done, phase⟩ := st
  cases phase with
  | quoted m text =>
    have hne : c ≠ m := by
      rintro rfl
      have hmark := hm c text rfl
      rcases hc with rfl | rfl <;> cases hmark
    simp [step?, State.breakLine?, hne]
  | _ => rcases hc with rfl | rfl <;> rfl

lemma inMarks_unified (h : st.phase.InMarks) : st.unified.phase.InMarks := by
  obtain ⟨done, phase⟩ := st
  cases phase with
  | quoted m text =>
    rintro _ _ ⟨⟩
    exact h m text rfl
  | _ => exact fun _ _ e => by cases e

/-- A carriage return in one scan does what a line feed does in the other. -/
lemma step?_return (hf : st.phase.Fits) :
    step? st.unified '\n' = (step? st '\r').map State.unified := by
  have hm := inMarks_of_fits hf
  rw [step?_lineEnd (.inr rfl) (inMarks_unified hm), step?_lineEnd (.inl rfl) hm]
  have hreturn : ∀ text, unifyBack ('\r' :: text) = '\n' :: unifyBack text :=
    fun text => unifyBack_cons (by simp)
  obtain ⟨done, phase⟩ := st
  cases phase with
  | name kind last text =>
    have hclose := unified_close kind (unifyBack_name hf)
    simp [State.breakLine?, State.unified, Phase.unified, Chain.unified, hclose, hreturn]
  | _ => simp [State.breakLine?, State.unified, Phase.unified, hreturn]

/-- The line feed of a carriage return changes nothing but the text, which stays the same when its
line ends are made one. -/
lemma exists_step?_newline (hf : st.phase.Fits) (h : step? st '\r' = some m) :
    ∃ m', step? m '\n' = some m' ∧ m'.unified = m.unified := by
  have hm : m.phase.InMarks := inMarks_of_fits (fits_of_step? hf h)
  rw [step?_lineEnd (.inl rfl) (inMarks_of_fits hf)] at h
  rw [step?_lineEnd (.inr rfl) hm]
  obtain ⟨done, phase⟩ := st
  cases phase <;> cases h <;>
    exact ⟨_, rfl, by simp [State.unified, Phase.unified, unifyBack_newline]⟩

/-! ### Two scans side by side -/

/-- Where two scans take the same step, they go on side by side. -/
lemma run_cons_unified {d : Char} {s t : Text} (hd : d = unifyNewline c)
    (hstep : step? st.unified d = (step? st c).map State.unified)
    (hrest : ∀ m, step? st c = some m →
      run m.unified t = ((run m s).map State.unified).mapError unifyNewline) :
    run st.unified (d :: t) = ((run st (c :: s)).map State.unified).mapError unifyNewline := by
  cases h : step? st c with
  | none =>
    rw [h] at hstep
    rw [run_cons, run_cons, step, step, hstep, h, hd]
    rfl
  | some m =>
    rw [h, Option.map_some] at hstep
    rw [run_cons_of_step? hstep, run_cons_of_step? h]
    exact hrest m h

/-- A scan over a text with its line ends made one ends where the scan over the text does, up to
line ends. It may begin anywhere but between a carriage return and its line feed. -/
lemma run_unified (hf : st.phase.Fits)
    (hs : s.head? = some '\n' → st.phase.pending.getLast? ≠ some '\r') :
    run st.unified (unifyNewlines s) =
      ((run st s).map State.unified).mapError unifyNewline := by
  -- By the clauses of the rewriting: a carriage return with its line feed, one without, and any
  -- other character. What is pending tells whether a line feed to come would belong to a return.
  induction s using unifyNewlines.induct generalizing st with
  | case1 => rfl
  | case2 s ih =>
    rw [unifyNewlines]
    refine run_cons_unified rfl (step?_return hf) fun m h => ?_
    obtain ⟨m', hm', hu⟩ := exists_step?_newline hf h
    rw [← hu, run_cons_of_step? hm']
    refine ih (fits_of_step? (fits_of_step? hf h) hm') fun _ hr => ?_
    cases getLast?_pending_of_step? hm' _ hr
  | case3 s hn ih =>
    rw [unifyNewlines.eq_3 s hn]
    refine run_cons_unified rfl (step?_return hf) fun m h => ih (fits_of_step? hf h) fun hfeed => ?_
    obtain ⟨t, rfl⟩ := List.head?_eq_some_iff.mp hfeed
    exact absurd rfl (hn t)
  | case4 c s hn hc ih =>
    rw [unifyNewlines_cons hc]
    have hstep := step?_unified hf hc fun e => hs (by rw [e]; rfl)
    refine run_cons_unified (unifyNewline_of_ne hc).symm hstep fun m h => ?_
    exact ih (fits_of_step? hf h) fun _ hr => hc (getLast?_pending_of_step? h _ hr).symm

lemma finish?_unified (hf : st.phase.Fits) :
    finish? st.unified = (finish? st).map Chain.unified := by
  obtain ⟨done, phase⟩ := st
  cases phase with
  | lead text =>
    simp only [finish?, State.unified, Phase.unified, all_isBlank_unifyBack]
    split_ifs <;> simp [Chain.unified]
  | name kind last text =>
    have hclose := unified_close kind (unifyBack_name hf)
    simp [finish?, State.unified, Phase.unified, Chain.unified, hclose]
  | _ => rfl

end Selector

/-! ### Chains -/

def ChainError.unified (e : ChainError) : ChainError :=
  ⟨e.found.map unifyNewline, unifyNewlines e.source⟩

namespace Selector

lemma fits_of_run {s : Text} {st : State} (h : run .initial s = .ok st) : st.phase.Fits :=
  (consumed_initial.run h).fits

lemma parse_unifyNewlines (s : Text) :
    parse (unifyNewlines s) = ((parse s).map Chain.unified).mapError ChainError.unified := by
  have hinitial : State.initial.unified = State.initial := rfl
  have hrun : run State.initial.unified (unifyNewlines s) = _ :=
    run_unified consumed_initial.fits (by simp [State.initial, Phase.pending])
  rw [hinitial] at hrun
  rw [parse, hrun, parse]
  cases h : run .initial s with
  | error c => rfl
  | ok st =>
    simp only [Except.map, Except.mapError, finish?_unified (fits_of_run h)]
    cases finish? st <;> rfl

end Selector
end StyleNest
