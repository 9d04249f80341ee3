import StyleNest.Proofs.Selector.LineEnds
import StyleNest.Proofs.Sheet.Consumed

/-!
Sheets with their line ends made one.

As with chains, two scans go side by side. A carriage return is a blank or part of a text wherever
it stands, so it is never at fault and nothing is cut between it and its line feed. The rules are
the same up to the line ends in their texts, and so are the reports. Places are the same where no
carriage return stands alone.
-/

namespace StyleNest.Sheet

open Text Selector

/-! ### Line ends in what a scan holds -/

def Declaration.unified (d : Declaration) : Declaration := { d with value := unifyNewlines d.value }

def Rule.unified (r : Rule) : Rule :=
  ⟨r.selectors.map Chain.unified, r.declarations.map Declaration.unified⟩

def Draft.unified (d : Draft) : Draft :=
  ⟨d.selectors.map Chain.unified, d.declarations.map Declaration.unified⟩

def Phase.unified : Phase → Phase
  | .outside => .outside
  | .selector done text => .selector (done.map Chain.unified) (unifyBack text)
  | .comma done => .comma (done.map Chain.unified)
  | .block d => .block d.unified
  | .inName d name => .inName d.unified name
  | .afterName d name => .afterName d.unified name
  | .afterColon d name => .afterColon d.unified name
  | .inValue d name value => .inValue d.unified name (unifyBack value)

def Move.unified : Move → Move
  | .enter phase => .enter phase.unified
  | .close rule => .close rule.unified
  | .refuse => .refuse
  | .refuseChain e => .refuseChain e.unified

lemma Draft.unified_nil : Draft.unified ⟨[], []⟩ = ⟨[], []⟩ := rfl

lemma Draft.unified_declare (d : Draft) (name value : Text) :
    (d.declare name value).unified = d.unified.declare name (unifyBack value) := by
  simp [declare, unified, Declaration.unified]

lemma Draft.unified_rule (d : Draft) : d.rule.unified = d.unified.rule := by
  simp [rule, unified, Rule.unified]

/-! ### Single characters -/

variable {phase phase' : Phase} {c : Char} {s : Text}

lemma endChain_unified (done : List Chain) (text : Text) {next next' : List Chain → Phase}
    (hnext : ∀ cs, next' (cs.map Chain.unified) = (next cs).unified) :
    endChain (done.map Chain.unified) (unifyBack text) next' =
      (endChain done text next).unified := by
  rw [endChain, reverse_unifyBack, trim_unifyNewlines, parse_unifyNewlines, endChain]
  cases Selector.parse (trim text.reverse) with
  | error e => rfl
  | ok chain => exact congrArg Move.enter (hnext (chain :: done))

lemma endChain_comma_unified (done : List Chain) (text : Text) :
    endChain (done.map Chain.unified) (unifyBack text) .comma =
      (endChain done text .comma).unified :=
  endChain_unified done text fun _ => rfl

lemma endChain_block_unified (done : List Chain) (text : Text) :
    endChain (done.map Chain.unified) (unifyBack text) (fun cs => .block ⟨cs, []⟩) =
      (endChain done text fun cs => .block ⟨cs, []⟩).unified :=
  endChain_unified done text fun _ => rfl

/-- The text that a phase gathers, latest first. -/
def Phase.gathered : Phase → Text
  | .selector _ text => text
  | .inValue _ _ value => value
  | _ => []

lemma gathered_of_endChain {done : List Chain} {text : Text} {next : List Chain → Phase}
    (hnext : ∀ cs, (next cs).gathered = []) (h : endChain done text next = .enter phase') :
    phase'.gathered = [] := by
  obtain ⟨chain, -, rfl⟩ := endChain_eq_enter h
  exact hnext (chain :: done)

/-- What is gathered ends with the character that was read last. -/
lemma head?_gathered_of_enter (h : phase.move c = .enter phase') :
    ∀ d ∈ phase'.gathered.head?, d = c := by
  intro d hd
  cases phase with
  | selector done text =>
    simp only [Phase.move] at h
    split_ifs at h
    · cases h
      simpa [Phase.gathered, eq_comm] using hd
    · simp [gathered_of_endChain (fun _ => rfl) h] at hd
    · simp [gathered_of_endChain (fun _ => rfl) h] at hd
  | _ =>
    simp only [Phase.move] at h
    split_ifs at h <;> cases h <;> simp_all [Phase.gathered]

/-- A character other than a carriage return does the same in both scans, unless it is the line
feed of a carriage return. -/
lemma move_unified (hc : c ≠ '\r') (hn : c = '\n' → phase.gathered.head? ≠ some '\r') :
    phase.unified.move c = (phase.move c).unified := by
  have hfirst : unifyBack [c] = [c] := by
    rw [unifyBack_cons (by simp), unifyNewline_of_ne hc, unifyBack_nil]
  have hnext : unifyBack (c :: phase.gathered) = c :: unifyBack phase.gathered := by
    rw [unifyBack_cons hn, unifyNewline_of_ne hc]
  cases phase with
  | selector done text =>
    simp only [Phase.gathered] at hnext
    simp only [Phase.unified, Phase.move]
    split_ifs <;> simp [Move.unified, Phase.unified, hnext, endChain_comma_unified,
      endChain_block_unified]
  | _ =>
    simp only [Phase.gathered] at hnext
    simp only [Phase.unified, Phase.move]
    split_ifs <;> simp [Move.unified, Phase.unified, Draft.unified_nil, Draft.unified_rule,
      Draft.unified_declare, hfirst, hnext]

/-- What either character of a line end does, as a blank that it is or as a part of a text. -/
def Phase.breakLine (phase : Phase) (c : Char) : Phase :=
  match phase with
  | .selector done text => .selector done (c :: text)
  | .inName d name => .afterName d name
  | .inValue d name value => .inValue d name (c :: value)
  | _ => phase

lemma move_lineEnd (hc : c = '\r' ∨ c = '\n') (phase : Phase) :
    phase.move c = .enter (phase.breakLine c) := by
  cases phase <;> rcases hc with rfl | rfl <;> rfl

/-- A carriage return in one scan does what a line feed does in the other. -/
lemma breakLine_return (phase : Phase) :
    phase.unified.breakLine '\n' = (phase.breakLine '\r').unified := by
  have hreturn : ∀ text, unifyBack ('\r' :: text) = '\n' :: unifyBack text :=
    fun text => unifyBack_cons (by simp)
  cases phase <;> simp [Phase.breakLine, Phase.unified, hreturn]

/-- The line feed of a carriage return changes nothing but the text, which stays the same when its
line ends are made one. -/
lemma breakLine_newline (phase : Phase) :
    ((phase.breakLine '\r').breakLine '\n').unified = (phase.breakLine '\r').unified := by
  cases phase <;> simp [Phase.breakLine, Phase.unified, unifyBack_newline]

/-! ### Two scans side by side -/

/-- The reports are the same up to line ends, and their places too where carriage returns are
paired. -/
inductive Error.Unifies (paired : Prop) : Error → Error → Prop where
  | unexpected (found : Option Char) {place place' : Position} (h : paired → place' = place) :
      Unifies paired (.unexpected found place) (.unexpected (found.map unifyNewline) place')
  | chain (e : ChainError) : Unifies paired (.chain e) (.chain e.unified)

/-- Both scans go on, to results that correspond, or both stop. -/
inductive Agrees (paired : Prop) {α β : Type} (R : α → β → Prop) :
    Except Error α → Except Error β → Prop where
  | ok {a : α} {b : β} (h : R a b) : Agrees paired R (.ok a) (.ok b)
  | error {e e' : Error} (h : e.Unifies paired e') : Agrees paired R (.error e) (.error e')

/-- Where two scans stand when the second one reads the same text with its line ends made one. -/
structure State.Unifies (paired : Prop) (st st' : State) : Prop where
  rules : st'.rules = st.rules.map Rule.unified
  phase : st'.phase = st.phase.unified
  place : paired → st'.place = st.place

variable {paired : Prop} {st st' m m' : State}

lemma unifies_initial : State.initial.Unifies paired State.initial := ⟨rfl, rfl, fun _ => rfl⟩

/-- Scans that agree on a step agree on a text if they agree on what is left of it. -/
lemma Agrees.run_cons {d : Char} {t : Text}
    (hstep : Agrees paired (State.Unifies paired) (step st c) (step st' d))
    (hrest : ∀ m m', step st c = .ok m → m.Unifies paired m' →
      Agrees paired (State.Unifies paired) (run m s) (run m' t)) :
    Agrees paired (State.Unifies paired) (run st (c :: s)) (run st' (d :: t)) := by
  rw [Sheet.run_cons, Sheet.run_cons]
  generalize hx : step st c = x, step st' d = y at hstep
  cases hstep with
  | ok hm => exact hrest _ _ hx hm
  | error he => exact .error he

lemma step_unified (h : st.Unifies paired st') (hc : c ≠ '\r')
    (hn : c = '\n' → st.phase.gathered.head? ≠ some '\r') :
    Agrees paired (State.Unifies paired) (step st c) (step st' c) := by
  have hplace : paired → st'.place.next c = st.place.next c := fun p => by rw [h.place p]
  rw [step, step, h.phase, move_unified hc hn]
  cases st.phase.move c with
  | enter phase => exact .ok ⟨h.rules, rfl, hplace⟩
  | close rule => exact .ok ⟨by simp [h.rules], rfl, hplace⟩
  | refuse =>
    have he := Error.Unifies.unexpected (some c) h.place
    rw [Option.map_some, unifyNewline_of_ne hc] at he
    exact .error he
  | refuseChain e => exact .error (.chain e)

lemma step_lineEnd (hc : c = '\r' ∨ c = '\n') (st : State) :
    step st c = .ok ⟨st.rules, st.phase.breakLine c, st.place.next c⟩ := by
  rw [step, move_lineEnd hc]

/-- A carriage return and its line feed are one step of the other scan. -/
lemma run_pair (h : st.Unifies paired st') :
    ∃ m, run st ['\r', '\n'] = .ok m ∧ m.phase.gathered.head? ≠ some '\r' ∧
      ∃ m', step st' '\n' = .ok m' ∧ m.Unifies paired m' := by
  have hrun : run st ['\r', '\n'] =
      .ok ⟨st.rules, (st.phase.breakLine '\r').breakLine '\n', (st.place.next '\r').next '\n'⟩ := by
    rw [Sheet.run_cons, step_lineEnd (.inl rfl)]
    change run _ ['\n'] = _
    rw [Sheet.run_cons, step_lineEnd (.inr rfl)]
    rfl
  have hlast : ((st.phase.breakLine '\r').breakLine '\n').gathered.head? ≠ some '\r' := by
    intro hr
    cases head?_gathered_of_enter (move_lineEnd (.inr rfl) _) _ hr
  have hphase : st'.phase.breakLine '\n' =
      ((st.phase.breakLine '\r').breakLine '\n').unified := by
    rw [h.phase, breakLine_return, breakLine_newline]
  have hplace : paired → st'.place.next '\n' = (st.place.next '\r').next '\n' := by
    intro p
    rw [h.place p]
    rfl
  exact ⟨_, hrun, hlast, _, step_lineEnd (.inr rfl) st', h.rules, hphase, hplace⟩

lemma head?_gathered_of_step (h : step st c = .ok m) : ∀ d ∈ m.phase.gathered.head?, d = c := by
  unfold step at h
  split at h <;> cases h
  · exact head?_gathered_of_enter ‹_›
  · simp [Phase.gathered]

/-- Scans that stand alike end alike. They may begin anywhere but between a carriage return and its
line feed. -/
lemma run_unified (h : st.Unifies paired st') (hp : paired → ReturnsPaired s)
    (hs : s.head? = some '\n' → st.phase.gathered.head? ≠ some '\r') :
    Agrees paired (State.Unifies paired) (run st s) (run st' (unifyNewlines s)) := by
  -- By the clauses of the rewriting: a carriage return with its line feed, one without, and any
  -- other character. What is gathered tells whether a line feed to come would belong to a return.
  induction s using unifyNewlines.induct generalizing st st' with
  | case1 => exact .ok h
  | case2 s ih =>
    have hrest : paired → ReturnsPaired s := fun p =>
      (returnsPaired_cons.mp (returnsPaired_cons.mp (hp p)).2).2
    obtain ⟨m, hm, hr, m', hm', hu⟩ := run_pair h
    rw [unifyNewlines, Sheet.run_cons _ _ (unifyNewlines s), hm',
      show '\r' :: '\n' :: s = ['\r', '\n'] ++ s from rfl, run_append, hm]
    exact ih hu hrest fun _ => hr
  | case3 s hn ih =>
    have hlone : ¬ paired := fun p => by
      obtain ⟨t, rfl⟩ := List.head?_eq_some_iff.mp ((returnsPaired_cons.mp (hp p)).1 rfl)
      exact hn t rfl
    rw [unifyNewlines.eq_3 s hn]
    have hstep : Agrees paired (State.Unifies paired) (step st '\r') (step st' '\n') := by
      rw [step_lineEnd (.inl rfl), step_lineEnd (.inr rfl), h.phase, breakLine_return]
      exact .ok ⟨h.rules, rfl, fun p => absurd p hlone⟩
    refine .run_cons hstep fun m m' _ hm => ih hm (fun p => absurd p hlone) fun hfeed => ?_
    obtain ⟨t, rfl⟩ := List.head?_eq_some_iff.mp hfeed
    exact absurd rfl (hn t)
  | case4 c s hn hc ih =>
    have hrest : paired → ReturnsPaired s := fun p => (returnsPaired_cons.mp (hp p)).2
    rw [unifyNewlines_cons hc]
    refine .run_cons (step_unified h hc fun e => hs (by rw [e]; rfl)) fun m m' hm hu => ?_
    exact ih hu hrest fun _ hr => hc (head?_gathered_of_step hm _ hr).symm

lemma finish_unified (h : st.Unifies paired st') :
    Agrees paired (fun rs rs' => rs' = rs.map Rule.unified) (finish st) (finish st') := by
  rw [finish, finish, h.phase]
  cases st.phase with
  | outside => exact .ok (by rw [h.rules, List.map_reverse])
  | _ => exact .error (.unexpected none h.place)

lemma parse_unified (hp : paired → ReturnsPaired s) :
    Agrees paired (fun rs rs' => rs' = rs.map Rule.unified) (parse s)
      (parse (unifyNewlines s)) := by
  have hrun : Agrees paired (State.Unifies paired) (run .initial s)
      (run .initial (unifyNewlines s)) :=
    run_unified unifies_initial hp (by simp [State.initial, Phase.gathered])
  rw [parse, parse]
  generalize run .initial s = x, run .initial (unifyNewlines s) = y at hrun
  cases hrun with
  | ok h => exact finish_unified h
  | error h => exact .error h

lemma parse_unified_of_parse {rs : List Rule} (h : parse s = .ok rs) :
    parse (unifyNewlines s) = .ok (rs.map Rule.unified) := by
  have hagrees : Agrees False (fun rs rs' => rs' = rs.map Rule.unified) (parse s)
      (parse (unifyNewlines s)) := parse_unified False.elim
  rw [h] at hagrees
  generalize parse (unifyNewlines s) = y at hagrees
  cases hagrees with
  | ok h => rw [h]

/-! ### Reports -/

variable {e e' : Error}

lemma map_unifyNewline_toList (found : Option Char) :
    (found.map unifyNewline).toList = unifyNewlines found.toList := by
  cases found with
  | none => rfl
  | some c => exact (unifyNewlines_singleton c).symm

lemma Error.Unifies.found (h : e.Unifies paired e') :
    e'.diagnostic.found = unifyNewlines e.diagnostic.found := by
  cases h with
  | unexpected found _ => exact map_unifyNewline_toList found
  | chain e => exact map_unifyNewline_toList e.found

lemma Error.Unifies.source (h : e.Unifies paired e') :
    e'.diagnostic.source = e.diagnostic.source.map unifyNewlines := by
  cases h <;> rfl

lemma Error.Unifies.place (h : e.Unifies paired e') (hp : paired) :
    e'.diagnostic.line = e.diagnostic.line ∧ e'.diagnostic.column = e.diagnostic.column := by
  cases h with
  | unexpected found h => simp [Error.diagnostic, h hp]
  | chain e => exact ⟨rfl, rfl⟩

/-- Line ends do not change what a sheet means. With its line ends made one it is read exactly when
it is read as it is, into the same rules with the line ends of their texts made one. A report
blames the same, at the same place if every carriage return has its line feed. -/
theorem parse_sheet_unifyNewlines (s : Text) :
    ((∃ rs, parse s = .ok rs) ↔ ∃ rs, parse (unifyNewlines s) = .ok rs) ∧
      (∀ rs, parse s = .ok rs → parse (unifyNewlines s) = .ok (rs.map Rule.unified)) ∧
      ∀ e e', parse s = .error e → parse (unifyNewlines s) = .error e' →
        e'.diagnostic.found = unifyNewlines e.diagnostic.found ∧
        e'.diagnostic.source = e.diagnostic.source.map unifyNewlines ∧
        (ReturnsPaired s →
          e'.diagnostic.line = e.diagnostic.line ∧ e'.diagnostic.column = e.diagnostic.column) := by
  have h : Agrees (ReturnsPaired s) (fun rs rs' => rs' = rs.map Rule.unified) (parse s)
      (parse (unifyNewlines s)) := parse_unified id
  generalize parse s = x, parse (unifyNewlines s) = y at h
  cases h with
  | ok h => simp [h]
  | error h => simpa using ⟨h.found, h.source, h.place⟩

/-- A lone carriage return in a selector and one in a value become line feeds, and a refusal behind
a paired one keeps its place. -/
theorem parse_sheet_unifyNewlines_of_return :
    (∃ rs, parse "a\rb\x7bx:1\r2\x7d".toList = .ok rs ∧
      parse "a\nb\x7bx:1\n2\x7d".toList = .ok (rs.map Rule.unified)) ∧
    ReturnsPaired "a\r\n\x7bx!".toList ∧
    ∃ e e', parse "a\r\n\x7bx!".toList = .error e ∧ parse "a\n\x7bx!".toList = .error e' ∧
      e'.diagnostic.line = e.diagnostic.line ∧ e'.diagnostic.column = e.diagnostic.column := by
  have hpaired : ReturnsPaired "a\r\n\x7bx!".toList := by
    simp [returnsPaired_cons, returnsPaired_nil]
  obtain ⟨-, hread, -⟩ := parse_sheet_unifyNewlines "a\rb\x7bx:1\r2\x7d".toList
  obtain ⟨-, -, hrefused⟩ := parse_sheet_unifyNewlines "a\r\n\x7bx!".toList
  exact ⟨⟨_, rfl, hread _ rfl⟩, hpaired, _, _, rfl, rfl, (hrefused _ _ rfl rfl).2.2 hpaired⟩

end StyleNest.Sheet
