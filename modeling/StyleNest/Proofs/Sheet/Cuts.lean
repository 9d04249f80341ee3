import StyleNest.Proofs.Sheet.Failure

/-!
Sheets that are cut off.

A rule begins with a character that is no blank and ends with the only closing brace in it. Between
the two a scan is inside the rule, so a sheet that is cut there is refused at its end. Cut anywhere
else it is a shorter sheet, with the rules that end before the cut.
-/

namespace StyleNest.Sheet

open Text Selector

/-! ### Where the rules of a sheet stand -/

/-- A rule with the places where its text begins and ends. -/
structure Block where
  rule : Rule
  start : Nat
  stop : Nat

/-- The text of the rule begins before a place and ends behind it. -/
def Block.IsCut (b : Block) (k : Nat) : Prop := b.start < k ∧ k < b.stop

/-- The blocks of a text that stands behind `offset` characters, with blanks around them. -/
inductive Divides : Nat → Text → List Block → Prop where
  | nil {offset : Nat} {w : Text} : IsSpaces w → Divides offset w []
  | cons {offset : Nat} {w t s : Text} {r : Rule} {bs : List Block} :
      IsSpaces w → r.Reads t → Divides (offset + w.length + t.length) s bs →
      Divides offset (w ++ t ++ s)
        (⟨r, offset + w.length, offset + w.length + t.length⟩ :: bs)

lemma exists_divides {s : Text} {rules : List Rule} (h : Reads s rules) (offset : Nat) :
    ∃ bs, Divides offset s bs ∧ bs.map Block.rule = rules := by
  induction h generalizing offset with
  | nil hw => exact ⟨[], .nil hw, rfl⟩
  | cons hw hr _ ih =>
    obtain ⟨bs, hd, e⟩ := ih _
    exact ⟨_, .cons hw hr hd, by rw [List.map_cons, e]⟩

lemma Divides.reads {offset : Nat} {s : Text} {bs : List Block} (h : Divides offset s bs) :
    Reads s (bs.map Block.rule) := by
  induction h with
  | nil hw => exact .nil hw
  | cons hw hr _ ih => exact .cons hw hr ih

lemma Divides.le_start {offset : Nat} {s : Text} {bs : List Block} (h : Divides offset s bs) :
    ∀ b ∈ bs, offset ≤ b.start := by
  induction h with
  | nil => simp
  | @cons offset w t s r bs _ _ _ ih =>
    refine List.forall_mem_cons.mpr ⟨Nat.le_add_right _ _, fun b hb => ?_⟩
    have := ih b hb
    omega

/-! ### The braces of a rule -/

variable {s t u w : Text} {c : Char}

lemma brace_not_mem_of_isSpaces (h : IsSpaces w) : '}' ∉ w := fun hm => by
  cases h _ hm

lemma IsChainText.brace_not_mem (h : IsChainText t) : '}' ∉ t := fun hm => by
  cases h.1 _ hm

lemma ListReads.brace_not_mem {cs : List Chain} (h : ListReads t cs) : '}' ∉ t := by
  induction h with
  | one ht _ => exact ht.brace_not_mem
  | cons ht _ hw _ ih =>
    simp [ht.brace_not_mem, brace_not_mem_of_isSpaces hw, ih]

lemma ListReads.head_not_space {cs : List Chain} (h : ListReads t cs) :
    ∃ c v, t = c :: v ∧ isSpace c = false := by
  have hchain : ∀ {t : Text}, IsChainText t → ∃ c v, t = c :: v ∧ isSpace c = false := by
    rintro t ⟨-, c, hc, hn⟩
    obtain ⟨v, rfl⟩ := List.head?_eq_some_iff.mp hc
    exact ⟨c, v, rfl, hn⟩
  cases h with
  | one ht _ => exact hchain ht
  | cons ht _ _ _ =>
    obtain ⟨c, v, rfl, hn⟩ := hchain ht
    exact ⟨c, _, rfl, hn⟩

lemma Declaration.Reads.brace_not_mem {d : Declaration} (h : d.Reads t) : '}' ∉ t := by
  cases h with
  | @mk name u w value hn hu hw hv =>
    have hname : '}' ∉ name := fun hm => by cases hn.2 _ hm
    simp [hname, brace_not_mem_of_isSpaces hu, brace_not_mem_of_isSpaces hw, hv.2.2]

lemma BodyReads.brace_not_mem {ds : List Declaration} (h : BodyReads t ds) : '}' ∉ t := by
  induction h with
  | nil => simp
  | last hd => exact hd.brace_not_mem
  | cons hd hw _ ih => simp [hd.brace_not_mem, brace_not_mem_of_isSpaces hw, ih]

/-- A rule begins with no blank, and its last character is the only closing brace in it. -/
lemma Rule.Reads.exists_eq_snoc {r : Rule} (h : r.Reads t) :
    ∃ c v, t = c :: v ++ ['}'] ∧ isSpace c = false ∧ '}' ∉ c :: v := by
  cases h with
  | @bare w s ds hw hb =>
    refine ⟨'{', w ++ s, by simp, rfl, ?_⟩
    simp [brace_not_mem_of_isSpaces hw, hb.brace_not_mem]
  | @selecting t w s cs ds hl hw hb =>
    obtain ⟨c, v, rfl, hn⟩ := hl.head_not_space
    refine ⟨c, v ++ '{' :: (w ++ s), by simp, hn, ?_⟩
    have hlist := hl.brace_not_mem
    simp only [List.mem_cons, List.mem_append, not_or] at hlist ⊢
    refine ⟨hlist.1, hlist.2, by decide, brace_not_mem_of_isSpaces hw, hb.brace_not_mem⟩

/-! ### Inside a rule -/

variable {phase phase' : Phase} {st st' : State}

/-- A rule that is open stays open, and any character but a blank opens one. -/
lemma ne_outside_of_enter (hm : phase.move c = .enter phase')
    (h : phase = .outside → isSpace c = false) : phase' ≠ .outside := by
  cases phase with
  | outside =>
    simp only [Phase.move] at hm
    split_ifs at hm with h1 <;> cases hm <;> simp_all
  | selector done text =>
    simp only [Phase.move] at hm
    split_ifs at hm
    · cases hm
      simp
    · obtain ⟨chain, -, rfl⟩ := endChain_eq_enter hm
      simp
    · obtain ⟨chain, -, rfl⟩ := endChain_eq_enter hm
      simp
  | _ =>
    simp only [Phase.move] at hm
    split_ifs at hm <;> cases hm <;> simp

lemma ne_outside_of_step (hs : step st c = .ok st') (hc : c ≠ '}')
    (h : st.phase = .outside → isSpace c = false) : st'.phase ≠ .outside := by
  unfold step at hs
  split at hs <;> cases hs
  · exact ne_outside_of_enter ‹_› h
  · exact absurd (eq_brace_of_close ‹_›) hc

/-- Only a closing brace ends a rule. -/
lemma ne_outside_of_run (h : st.phase ≠ .outside) (hs : '}' ∉ s) (hr : run st s = .ok st') :
    st'.phase ≠ .outside := by
  induction s generalizing st with
  | nil =>
    cases hr
    exact h
  | cons c s ih =>
    rw [List.mem_cons, not_or] at hs
    rw [run_cons] at hr
    cases hstep : step st c with
    | error e =>
      rw [hstep] at hr
      cases hr
    | ok m =>
      rw [hstep] at hr
      exact ih (ne_outside_of_step hstep (Ne.symm hs.1) fun e => absurd e h) hs.2 hr

/-- Over `s` the scan goes from the end of one rule into another. -/
def Inside (s : Text) : Prop :=
  ∀ rules place, ∃ st, run ⟨rules, .outside, place⟩ s = .ok st ∧ st.phase ≠ .outside

lemma Yields.inside {rs : List Rule} (h : Yields s rs) (ht : Inside t) : Inside (s ++ t) := by
  intro rules place
  rw [run_append_of_run (h rules place)]
  exact ht _ _

/-- A rule that has begun and is not read to its end is open. -/
lemma inside_take {r : Rule} (h : r.Reads t) {j : Nat} (hpos : 0 < j) (hj : j < t.length) :
    Inside (t.take j) := by
  intro rules place
  have hwhole := closes_rule h rules place
  rw [← List.take_append_drop j t] at hwhole
  obtain ⟨st, hst⟩ := exists_run_of_append hwhole
  refine ⟨st, hst, ?_⟩
  obtain ⟨c, v, rfl, hc, hbrace⟩ := h.exists_eq_snoc
  obtain ⟨i, rfl⟩ : ∃ i, j = i + 1 := ⟨j - 1, by omega⟩
  have hi : i + 1 ≤ (c :: v).length := by
    rw [List.length_append, List.length_singleton] at hj
    omega
  rw [List.mem_cons, not_or] at hbrace
  rw [List.take_append_of_le_length hi, List.take_succ_cons, run_cons] at hst
  cases hstep : step ⟨rules, .outside, place⟩ c with
  | error e =>
    rw [hstep] at hst
    cases hst
  | ok m =>
    rw [hstep] at hst
    have hopen : m.phase ≠ .outside := ne_outside_of_step hstep (Ne.symm hbrace.1) fun _ => hc
    exact ne_outside_of_run hopen (fun hm => hbrace.2 (List.mem_of_mem_take hm)) hst

lemma Inside.parse (h : Inside s) :
    parse s = .error (.unexpected none (Position.start.after s)) := by
  obtain ⟨st, hr, hp⟩ := h [] .start
  have hplace : st.place = Position.start.after s := place_of_run hr
  have hfinish : Sheet.parse s = finish st := by
    rw [Sheet.parse, State.initial, hr]
    rfl
  rw [hfinish, finish, ← hplace]
  split
  · exact absurd ‹_› hp
  · rfl

/-! ### Cuts -/

/-- What is left of a sheet that is cut: some of its first rules, and at the place of the cut
either no rule or the beginning of one. -/
lemma take_of_divides {offset : Nat} {bs : List Block} (h : Divides offset s bs) (k : Nat) :
    (∃ rs, rs <+: bs.map Block.rule ∧ Yields (s.take k) rs ∧ ∀ b ∈ bs, ¬ b.IsCut (offset + k)) ∨
      Inside (s.take k) ∧ ∃ b ∈ bs, b.IsCut (offset + k) := by
  induction h generalizing k with
  | @nil offset w hw =>
    refine .inl ⟨[], List.prefix_refl _, yields_spaces fun c hc => ?_, by simp⟩
    exact hw c (List.mem_of_mem_take hc)
  | @cons offset w t s r bs hw hr hs ih =>
    have hblank : Yields w [] := yields_spaces hw
    have hrule : Yields (w ++ t) [r] := hblank.append (closes_rule hr).yields
    by_cases h1 : k ≤ w.length
    · -- The cut stands in the blanks before the first rule.
      have htake : (w ++ t ++ s).take k = w.take k := by
        rw [List.append_assoc, List.take_append_of_le_length h1]
      refine .inl ⟨[], List.nil_prefix, ?_, List.forall_mem_cons.mpr ⟨?_, fun b hb => ?_⟩⟩
      · rw [htake]
        exact yields_spaces fun c hc => hw c (List.mem_of_mem_take hc)
      · rintro ⟨hstart, -⟩
        simp only at hstart
        omega
      · rintro ⟨hstart, -⟩
        have := hs.le_start b hb
        omega
    · by_cases h2 : k < w.length + t.length
      · -- The cut stands in the first rule.
        have htake : (w ++ t ++ s).take k = w ++ t.take (k - w.length) := by
          rw [List.append_assoc, List.take_append, List.take_of_length_le (by omega),
            List.take_append_of_le_length (by omega)]
        refine .inr ⟨?_, ⟨_, List.mem_cons_self .., ?_⟩⟩
        · rw [htake]
          exact hblank.inside (inside_take hr (by omega) (by omega))
        · constructor <;> simp only <;> omega
      · -- The cut stands behind the first rule.
        obtain ⟨j, rfl⟩ : ∃ j, k = w.length + t.length + j := ⟨k - (w.length + t.length), by omega⟩
        have htake : (w ++ t ++ s).take (w.length + t.length + j) = w ++ t ++ s.take j := by
          rw [← List.length_append, List.take_length_add_append]
        have hplace : offset + (w.length + t.length + j) = offset + w.length + t.length + j := by
          omega
        rw [htake, hplace]
        rcases ih j with ⟨rs, hrs, hyields, hno⟩ | ⟨hinside, b, hb, hcut⟩
        · refine .inl ⟨r :: rs, ?_, hrule.append hyields, List.forall_mem_cons.mpr ⟨?_, hno⟩⟩
          · exact List.cons_prefix_cons.mpr ⟨rfl, hrs⟩
          · rintro ⟨-, hstop⟩
            simp only at hstop
            omega
        · exact .inr ⟨hrule.inside hinside, b, List.mem_cons_of_mem _ hb, hcut⟩

/-- **A sheet that is cut off gives some of its first rules, or is refused at its end.** It is
refused exactly when the cut stands inside the text of a rule. -/
theorem parse_take {s : Text} {rules : List Rule} (h : parse s = .ok rules) :
    (∃ bs, Divides 0 s bs ∧ bs.map Block.rule = rules) ∧
      ∀ bs, Divides 0 s bs → ∀ k,
        ((∃ rs, rs <+: rules ∧ parse (s.take k) = .ok rs) ∨
          ∃ e, parse (s.take k) = .error e ∧
            e.diagnostic =
              ⟨[], some (lineBehind (s.take k)), some (columnBehind (s.take k)), none⟩) ∧
        ((∃ rs, parse (s.take k) = .ok rs) ↔ ∀ b ∈ bs, ¬ b.IsCut k) := by
  refine ⟨exists_divides (reads_of_parse h) 0, fun bs hd k => ?_⟩
  have hrules : bs.map Block.rule = rules := by
    have hread := parse_of_reads hd.reads
    rw [h] at hread
    exact (Except.ok.inj hread).symm
  have htake := take_of_divides hd k
  rw [Nat.zero_add, hrules] at htake
  rcases htake with ⟨rs, hrs, hyields, hno⟩ | ⟨hinside, b, hb, hcut⟩
  · exact ⟨.inl ⟨rs, hrs, hyields.parse⟩, fun _ => hno, fun _ => ⟨rs, hyields.parse⟩⟩
  · refine ⟨.inr ⟨_, hinside.parse, ?_⟩, ?_, fun hno => absurd hcut (hno b hb)⟩
    · rw [Position.after_start]
      rfl
    · rintro ⟨rs, hok⟩
      rw [hinside.parse] at hok
      cases hok

/-- A sheet of two rules, cut between them and in the value of the second one. -/
theorem parse_take_in_value :
    let s := "a\x7b\x7d\n.b , c\x7bx:\n1\x7d".toList
    ∃ rules, parse s = .ok rules ∧ parse (s.take 4) = .ok (rules.take 1) ∧
      ∃ bs, Divides 0 s bs ∧ bs.map Block.rule = rules ∧ (∀ b ∈ bs, ¬ b.IsCut 4) ∧
        (∃ b ∈ bs, b.IsCut 15) ∧ parse (s.take 15) = .error (.unexpected none ⟨3, 2⟩) := by
  intro s
  have hparse : parse s = .ok _ := rfl
  obtain ⟨⟨bs, hd, hrules⟩, hcut⟩ := parse_take hparse
  obtain ⟨-, hbetween⟩ := hcut bs hd 4
  obtain ⟨-, hinside⟩ := hcut bs hd 15
  have hrefused : parse (s.take 15) = .error (.unexpected none ⟨3, 2⟩) := rfl
  have hno : ¬ ∃ rs, parse (s.take 15) = .ok rs := by simp [hrefused]
  refine ⟨_, hparse, rfl, bs, hd, hrules, hbetween.mp ⟨_, rfl⟩, ?_, hrefused⟩
  by_contra hall
  push Not at hall
  exact hno (hinside.mpr hall)

end StyleNest.Sheet
