import StyleNest.Proofs.Selector.Decomposition

/-!
Texts that can still become chains.

Whatever a scan has let through can be gone on with to the end of a chain, because every phase has
an ending of its own. So a scan stops at the first character behind which there is no chain left,
and it misses the rest of a chain only where there is one.
-/

namespace StyleNest.Selector

open Text

/-- Some chain begins with the text. -/
def IsViable (s : Text) : Prop := ∃ t cs, parse (s ++ t) = .ok cs

/-! ### Every phase can be ended -/

variable {st st' : State} {s t : Text} {c : Char}

/-- A text behind which a chain may end that has come to a phase. -/
def Phase.ending : Phase → Text
  | .lead _ | .marker _ _ | .colon _ => ['a']
  | .name _ _ _ => []
  | .arguments _ => [')']
  | .attribute _ _ => ['a', ']']
  | .quoted mark _ => [mark, ']']

lemma exists_ends (st : State) : ∃ cs, Ends st st.phase.ending cs := by
  obtain ⟨done, phase⟩ := st
  cases phase with
  | lead text => exact ⟨_, _, rfl, rfl⟩
  | marker kind text => exact ⟨_, _, rfl, rfl⟩
  | colon text => exact ⟨_, _, rfl, rfl⟩
  | name kind last text => exact ⟨_, _, rfl, rfl⟩
  | arguments text => exact ⟨_, _, rfl, rfl⟩
  | «attribute» filled text =>
    have hfill : step? ⟨done, .attribute filled text⟩ 'a' =
        some ⟨done, .attribute true ('a' :: text)⟩ := rfl
    exact ⟨_, _, run_cons_of_step? hfill, rfl⟩
  | quoted mark text =>
    have hclose : step? ⟨done, .quoted mark text⟩ mark =
        some ⟨done, .attribute true (mark :: text)⟩ := by
      simp [step?]
    exact ⟨_, _, run_cons_of_step? hclose, rfl⟩

/-! ### What a scan lets through -/

lemma exists_run_of_append (h : run st (s ++ t) = .ok st') : ∃ m, run st s = .ok m := by
  rw [run_append] at h
  cases hs : run st s with
  | ok m => exact ⟨m, rfl⟩
  | error c =>
    rw [hs] at h
    cases h

/-- The viable texts are those that a scan lets through. -/
lemma isViable_iff : IsViable s ↔ ∃ st, run .initial s = .ok st := by
  constructor
  · rintro ⟨t, cs, h⟩
    obtain ⟨st, hr, -⟩ := parse_eq_ok_iff_ends.mp h
    exact exists_run_of_append hr
  · rintro ⟨st, hr⟩
    obtain ⟨cs, hends⟩ := exists_ends st
    exact ⟨_, cs, parse_eq_ok_iff_ends.mpr (hends.of_run hr)⟩

/-- A scan that fails does so at one character, having read all characters before it. -/
lemma exists_step_of_run_error (h : run st s = .error c) :
    ∃ u v m, s = u ++ c :: v ∧ run st u = .ok m ∧ step? m c = none := by
  induction s generalizing st with
  | nil => cases h
  | cons d s ih =>
    cases hs : step? st d with
    | none =>
      rw [run_cons, step, hs] at h
      cases h
      exact ⟨[], s, st, rfl, rfl, hs⟩
    | some st' =>
      rw [run_cons_of_step? hs] at h
      obtain ⟨u, v, m, rfl, hu, hc⟩ := ih h
      exact ⟨d :: u, v, m, rfl, by rwa [run_cons_of_step? hs], hc⟩

lemma run_eq_error_of_step? {u v : Text} (hu : run st u = .ok st') (hc : step? st' c = none) :
    run st (u ++ c :: v) = .error c := by
  rw [run_append_of_run hu, run_cons, step, hc]
  rfl

/-- A scan stops at the character that makes its text one of no chain. -/
lemma run_eq_error_iff : run .initial s = .error c ↔
    ∃ i, s[i]? = some c ∧ IsViable (s.take i) ∧ ¬ IsViable (s.take (i + 1)) := by
  constructor
  · intro h
    obtain ⟨u, v, m, rfl, hu, hc⟩ := exists_step_of_run_error h
    have htake : (u ++ c :: v).take (u.length + 1) = u ++ [c] := by
      rw [List.take_length_add_append]
      rfl
    have hstop : run .initial (u ++ [c]) = .error c := run_eq_error_of_step? hu hc
    refine ⟨u.length, by simp, ?_, ?_⟩
    · rw [List.take_left]
      exact isViable_iff.mpr ⟨m, hu⟩
    · rw [htake, isViable_iff]
      rintro ⟨st, hst⟩
      rw [hstop] at hst
      cases hst
  · rintro ⟨i, hi, hviable, hdead⟩
    obtain ⟨m, hm⟩ := isViable_iff.mp hviable
    obtain ⟨hlt, rfl⟩ := List.getElem?_eq_some_iff.mp hi
    have hsplit : s.take i ++ s[i] :: s.drop (i + 1) = s := by
      rw [← List.drop_eq_getElem_cons hlt, List.take_append_drop]
    cases hs : step? m s[i] with
    | none =>
      have hrun := run_eq_error_of_step? (v := s.drop (i + 1)) hm hs
      rwa [hsplit] at hrun
    | some m' =>
      refine absurd (isViable_iff.mpr ⟨m', ?_⟩) hdead
      rw [List.take_succ_eq_append_getElem hlt, run_append_of_run hm]
      exact run_cons_of_step? hs

/-! ### Refusals -/

lemma parse_of_run_error (h : run .initial s = .error c) : parse s = .error ⟨some c, s⟩ := by
  rw [parse, h]

lemma parse_of_run_ok (h : run .initial s = .ok st) :
    (∃ cs, parse s = .ok cs) ∨ parse s = .error ⟨none, s⟩ := by
  rw [parse, h]
  cases hf : finish? st with
  | some cs => exact .inl ⟨cs, by simp only [hf]⟩
  | none => exact .inr (by simp only [hf])

lemma exists_found_iff :
    (∃ e, parse s = .error e ∧ e.diagnostic.found = [c]) ↔ run .initial s = .error c := by
  cases hr : run .initial s with
  | error d =>
    rw [parse_of_run_error hr]
    simp [ChainError.diagnostic]
  | ok st =>
    rcases parse_of_run_ok hr with ⟨cs, hp⟩ | hp
    · simp [hp]
    · simp [hp, ChainError.diagnostic]

lemma exists_found_nil_iff : (∃ e, parse s = .error e ∧ e.diagnostic.found = []) ↔
    (∃ st, run .initial s = .ok st) ∧ ¬ ∃ cs, parse s = .ok cs := by
  cases hr : run .initial s with
  | error d =>
    rw [parse_of_run_error hr]
    simp [ChainError.diagnostic]
  | ok st =>
    rcases parse_of_run_ok hr with ⟨cs, hp⟩ | hp
    · simp [hp]
    · simp [hp, ChainError.diagnostic]

/-- **A refusal blames the first character behind which there is no chain left**, and the end of a
text only where a chain goes on from it. -/
theorem parse_error_iff_isViable (s : Text) :
    (∀ c, (∃ e, parse s = .error e ∧ e.diagnostic.found = [c]) ↔
      ∃ i, s[i]? = some c ∧ IsViable (s.take i) ∧ ¬ IsViable (s.take (i + 1))) ∧
    ((∃ e, parse s = .error e ∧ e.diagnostic.found = []) ↔
      IsViable s ∧ ¬ ∃ cs, parse s = .ok cs) ∧
    ((∃ cs, parse s = .ok cs) ∨
      ∃ e, parse s = .error e ∧ (e.diagnostic.found = [] ∨ ∃ c, e.diagnostic.found = [c])) := by
  refine ⟨fun c => exists_found_iff.trans run_eq_error_iff, ?_, ?_⟩
  · rw [isViable_iff]
    exact exists_found_nil_iff
  · cases hr : run .initial s with
    | error d => exact .inr ⟨_, parse_of_run_error hr, .inr ⟨d, rfl⟩⟩
    | ok st =>
      rcases parse_of_run_ok hr with ⟨cs, hp⟩ | hp
      · exact .inl ⟨cs, hp⟩
      · exact .inr ⟨_, hp, .inl rfl⟩

end StyleNest.Selector
