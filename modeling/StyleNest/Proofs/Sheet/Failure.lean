import Mathlib.Data.List.Induction
import StyleNest.Proofs.Sheet.Alphabet

/-!
Where the reading of a sheet fails, and what the report says of that place.

A scan stops at the first character that may not stand where it does, and nothing before that
character is at fault: what has been read up to any place before it is a sheet or the beginning of
one. A report without a place is that of a chain, which is the text behind the last comma or
closing brace.
-/

namespace StyleNest

namespace Text

/-! ### Behind the last character of a kind -/

/-- The end of a text behind its last character of a kind, the whole of it if there is none. -/
def behindLast (p : Char → Bool) (s : Text) : Text := (s.reverse.takeWhile (!p ·)).reverse

@[simp] lemma behindLast_nil (p : Char → Bool) : behindLast p [] = [] := rfl

lemma behindLast_snoc (p : Char → Bool) (s : Text) (c : Char) :
    behindLast p (s ++ [c]) = if p c then [] else behindLast p s ++ [c] := by
  cases h : p c <;> simp [behindLast, h]

/-- The line of the place behind a text. -/
def lineBehind (s : Text) : Nat := 1 + s.count '\n'

/-- The column of the place behind a text. -/
def columnBehind (s : Text) : Nat := 1 + (behindLast (· == '\n') s).length

lemma Position.after_start (s : Text) :
    Position.start.after s = ⟨lineBehind s, columnBehind s⟩ := by
  induction s using List.reverseRecOn with
  | nil => rfl
  | append_singleton s c ih =>
    rw [Position.after_append, ih, Position.after_cons, Position.after_nil, Position.next]
    by_cases h : c = '\n'
    · simp [h, lineBehind, columnBehind, behindLast_snoc]
      omega
    · simp [h, lineBehind, columnBehind, behindLast_snoc]
      omega

end Text

namespace Sheet

open Text Selector

/-! ### The character at fault -/

lemma exists_run_of_append {st st' : State} {s t : Text} (h : run st (s ++ t) = .ok st') :
    ∃ m, run st s = .ok m := by
  rw [run_append] at h
  cases hs : run st s with
  | ok m => exact ⟨m, rfl⟩
  | error e =>
    rw [hs] at h
    cases h

/-- A scan that fails does so at one character, having read all characters before it. -/
lemma exists_step_of_run_error {st : State} {s : Text} {e : Error} (h : run st s = .error e) :
    ∃ u c v m, s = u ++ c :: v ∧ run st u = .ok m ∧ step m c = .error e := by
  induction s generalizing st with
  | nil => cases h
  | cons c s ih =>
    rw [run_cons] at h
    cases hs : step st c with
    | error e' =>
      rw [hs] at h
      cases h
      exact ⟨[], c, s, st, rfl, rfl, hs⟩
    | ok st' =>
      rw [hs] at h
      obtain ⟨u, d, v, m, rfl, hu, hd⟩ := ih h
      refine ⟨c :: u, d, v, m, rfl, ?_, hd⟩
      rw [run_cons, hs]
      exact hu

/-- What has gone wrong at a character goes wrong in every text that begins so. -/
lemma parse_of_step_error {u t : Text} {c : Char} {m : State} {e : Error}
    (hu : run .initial u = .ok m) (hc : step m c = .error e) (ht : u ++ [c] <+: t) :
    parse t = .error e := by
  obtain ⟨v, rfl⟩ := ht
  have h : run .initial (u ++ [c]) = .error e := by
    rw [run_append_of_run hu, run_cons, hc]
    rfl
  rw [parse, run_append, h]
  rfl

/-- A text that the scan lets through is a sheet or the beginning of one. -/
lemma parse_of_run {s : Text} {m : State} (h : run .initial s = .ok m) :
    (∃ rs, parse s = .ok rs) ∨
      parse s = .error (.unexpected none (Position.start.after s)) := by
  have hp : m.place = Position.start.after s := place_of_run h
  rw [parse, h, ← hp]
  unfold Except.bind finish
  split
  · rename_i he
    cases he
  · rename_i m' hm
    cases hm
    split
    · exact .inl ⟨_, rfl⟩
    · exact .inr rfl

/-! ### The chain at fault -/

/-- What ends the text before a chain. -/
def endsItem (c : Char) : Bool := c == ',' || c == '}'

/-- What a phase says of the text behind the last comma or closing brace. -/
def Phase.Gathers : Phase → Text → Prop
  | .outside, s | .comma _, s => IsSpaces s
  | .selector _ text, s => ∃ w, s = w ++ text.reverse ∧ IsSpaces w
  | _, _ => True

lemma endsItem_eq_false_of_isSpace {c : Char} (h : isSpace c = true) : endsItem c = false := by
  simp only [isSpace, Bool.or_eq_true, beq_iff_eq] at h
  rcases h with ((rfl | rfl) | rfl) | rfl <;> rfl

lemma endsItem_eq_false_of_isSelectorChar {c : Char} (h : isSelectorChar c = true) :
    endsItem c = false := by
  by_contra he
  simp only [endsItem, Bool.not_eq_false, Bool.or_eq_true, beq_iff_eq] at he
  rcases he with rfl | rfl <;> cases h

variable {phase phase' : Phase} {c : Char} {s : Text}

lemma gathers_endChain {done : List Chain} {text : Text} {next : List Chain → Phase}
    (hm : endChain done text next = .enter phase') (hn : ∀ cs, (next cs).Gathers s) :
    phase'.Gathers s := by
  obtain ⟨chain, -, rfl⟩ := endChain_eq_enter hm
  exact hn (chain :: done)

lemma gathers_of_enter (hm : phase.move c = .enter phase')
    (h : phase.Gathers (behindLast endsItem s)) :
    phase'.Gathers (behindLast endsItem (s ++ [c])) := by
  rw [behindLast_snoc]
  cases phase with
  | outside =>
    simp only [Phase.move] at hm
    split_ifs at hm with h1 h2 h3 <;> cases hm
    · rw [endsItem_eq_false_of_isSpace h1]
      exact IsSpaces.append h (isSpaces_singleton h1)
    · rw [endsItem_eq_false_of_isSelectorChar h2]
      exact ⟨_, rfl, h⟩
    · trivial
  | selector done text =>
    obtain ⟨w, hw, hs⟩ := h
    simp only [Phase.move] at hm
    split_ifs at hm with h1 h2 h3
    · cases hm
      rw [endsItem_eq_false_of_isSelectorChar h1, hw]
      exact ⟨w, by simp, hs⟩
    · subst h2
      exact gathers_endChain hm fun _ => isSpaces_nil
    · exact gathers_endChain hm fun _ => trivial
  | comma done =>
    simp only [Phase.move] at hm
    split_ifs at hm with h1 h2 <;> cases hm
    · rw [endsItem_eq_false_of_isSpace h1]
      exact IsSpaces.append h (isSpaces_singleton h1)
    · rw [endsItem_eq_false_of_isSelectorChar h2]
      exact ⟨_, rfl, h⟩
  | _ =>
    simp only [Phase.move] at hm
    split_ifs at hm <;> cases hm <;> trivial

lemma eq_brace_of_close {rule : Rule} (hm : phase.move c = .close rule) : c = '}' := by
  cases phase with
  | selector done text =>
    simp only [Phase.move] at hm
    split_ifs at hm
    · exact absurd hm endChain_ne_close
    · exact absurd hm endChain_ne_close
  | _ =>
    simp only [Phase.move] at hm
    split_ifs at hm <;> assumption

lemma gathers_of_step {st st' : State} (h : st.phase.Gathers (behindLast endsItem s))
    (hs : step st c = .ok st') : st'.phase.Gathers (behindLast endsItem (s ++ [c])) := by
  unfold step at hs
  split at hs <;> cases hs
  · exact gathers_of_enter ‹_› h
  · rename_i rule hm
    obtain rfl := eq_brace_of_close hm
    rw [behindLast_snoc]
    exact isSpaces_nil

lemma gathers_of_run {st : State} (h : run .initial s = .ok st) :
    st.phase.Gathers (behindLast endsItem s) := by
  induction s using List.reverseRecOn generalizing st with
  | nil =>
    cases h
    exact isSpaces_nil
  | append_singleton s c ih =>
    obtain ⟨m, hm⟩ := exists_run_of_append h
    rw [run_append_of_run hm, run_cons] at h
    cases hc : step m c with
    | error e =>
      rw [hc] at h
      cases h
    | ok m' =>
      rw [hc] at h
      cases h
      exact gathers_of_step (ih hm) hc

/-- A chain is refused at the comma or brace that ends it. -/
lemma eq_selector_of_refuseChain {e : ChainError} (hm : phase.move c = .refuseChain e) :
    (c = ',' ∨ c = '{') ∧ ∃ done text, phase = .selector done text ∧
      Selector.parse (trim text.reverse) = .error e := by
  have hend : ∀ {done text next}, endChain done text next = .refuseChain e →
      Selector.parse (trim text.reverse) = .error e := by
    intro done text next h
    unfold endChain at h
    split at h <;> cases h
    assumption
  cases phase with
  | selector done text =>
    simp only [Phase.move] at hm
    split_ifs at hm with h1 h2 h3
    · exact ⟨.inl h2, done, text, rfl, hend hm⟩
    · exact ⟨.inr h3, done, text, rfl, hend hm⟩
  | _ =>
    simp only [Phase.move] at hm
    split_ifs at hm

/-- The text of the chain that ends where a text does. -/
def lastChain (s : Text) : Text := trim (behindLast endsItem s)

lemma parse_lastChain {st : State} {e : ChainError} (h : run .initial s = .ok st)
    (hm : st.phase.move c = .refuseChain e) :
    (c = ',' ∨ c = '{') ∧ Selector.parse (lastChain s) = .error e := by
  obtain ⟨hc, done, text, hp, he⟩ := eq_selector_of_refuseChain hm
  have hg := gathers_of_run h
  rw [hp] at hg
  obtain ⟨w, hw, hs⟩ := hg
  refine ⟨hc, ?_⟩
  rw [lastChain, hw, trim, trimLeft_append_of_blank fun x hx => isBlank_of_isSpace (hs x hx)]
  exact he

/-! ### Reports -/

/-- What the report on a text says of the place `i` where reading stopped. -/
inductive Blames (s : Text) (i : Nat) (e : Error) : Prop where
  /-- A character that may not follow what stands before it, whatever follows. -/
  | character {c : Char} :
      s[i]? = some c →
      e.diagnostic = ⟨[c], some (lineBehind (s.take i)), some (columnBehind (s.take i)), none⟩ →
      (∀ t, s.take (i + 1) <+: t → parse t = .error e) → Blames s i e
  /-- The end of the text. -/
  | ending :
      i = s.length → e.diagnostic = ⟨[], some (lineBehind s), some (columnBehind s), none⟩ →
      Blames s i e
  /-- A chain that ends at a comma or a brace and is refused by itself. -/
  | chain {c : Char} {ce : ChainError} :
      s[i]? = some c → c = ',' ∨ c = '{' → e = .chain ce →
      Selector.parse (lastChain (s.take i)) = .error ce →
      e.diagnostic = ⟨ce.found.toList, none, none, some (lastChain (s.take i))⟩ →
      (∀ t, s.take (i + 1) <+: t → parse t = .error e) → Blames s i e

/-- Reading `s` stops at `i` with a report on that place, and could have gone on from every place
up to there. -/
structure StopsAt (s : Text) (e : Error) (i : Nat) : Prop where
  le_length : i ≤ s.length
  unfinished : ∀ k ≤ i, (∃ rs, parse (s.take k) = .ok rs) ∨
    parse (s.take k) = .error (.unexpected none (Position.start.after (s.take k)))
  blames : Blames s i e

/-- A scan that has read `u` can have stopped anywhere in it. -/
lemma unfinished_of_run {u v : Text} {m : State} (h : run .initial u = .ok m) {k : Nat}
    (hk : k ≤ u.length) :
    (∃ rs, parse ((u ++ v).take k) = .ok rs) ∨
      parse ((u ++ v).take k) =
        .error (.unexpected none (Position.start.after ((u ++ v).take k))) := by
  rw [List.take_append_of_le_length hk]
  rw [← List.take_append_drop k u] at h
  obtain ⟨m', hm⟩ := exists_run_of_append h
  exact parse_of_run hm

/-- The step that fails is to blame. -/
lemma blames_of_step_error {u v : Text} {c : Char} {m : State} {e : Error}
    (hu : run .initial u = .ok m) (hc : step m c = .error e) :
    Blames (u ++ c :: v) u.length e := by
  have hget : (u ++ c :: v)[u.length]? = some c := by simp
  have htake : (u ++ c :: v).take u.length = u := by simp
  have hall : ∀ t, (u ++ c :: v).take (u.length + 1) <+: t → parse t = .error e := by
    intro t ht
    have e' : (u ++ c :: v).take (u.length + 1) = u ++ [c] := by
      rw [List.take_length_add_append]
      rfl
    exact parse_of_step_error hu hc (e' ▸ ht)
  have hplace : m.place = ⟨lineBehind u, columnBehind u⟩ := by
    rw [place_of_run hu]
    exact Position.after_start u
  have hstep := hc
  unfold step at hstep
  split at hstep <;> cases hstep
  · refine .character hget ?_ hall
    rw [htake, hplace]
    rfl
  · rename_i ce hm
    obtain ⟨hend, hp⟩ := parse_lastChain hu hm
    have hsource : ce.source = lastChain u := Selector.source_of_parse hp
    refine .chain hget hend rfl (by rwa [htake]) ?_ hall
    rw [htake, ← hsource]
    rfl

/-- **A sheet that cannot be read is refused at the first character that is at fault.** Up to that
place it could still be the beginning of a sheet, from there on no continuation helps, and the
report tells the place, or for a chain its text. -/
theorem exists_stopsAt {s : Text} {e : Error} (h : parse s = .error e) : ∃ i, StopsAt s e i := by
  cases hr : run .initial s with
  | error e' =>
    have : e' = e := by
      rw [parse, hr] at h
      cases h
      rfl
    subst this
    obtain ⟨u, c, v, m, rfl, hu, hc⟩ := exists_step_of_run_error hr
    exact ⟨u.length, by simp, fun k hk => unfinished_of_run hu hk, blames_of_step_error hu hc⟩
  | ok m =>
    have hk : ∀ k ≤ s.length, _ := fun k hk => unfinished_of_run (v := []) hr hk
    rw [List.append_nil] at hk
    refine ⟨s.length, le_rfl, hk, .ending rfl ?_⟩
    rcases parse_of_run hr with ⟨rs, hp⟩ | hp
    · rw [hp] at h
      cases h
    · rw [hp] at h
      cases h
      rw [Position.after_start]
      rfl

/-- A comma in a value ends no chain, and the chain that is refused begins behind its own comma. -/
theorem exists_stopsAt_unclosed_bracket :
    parse "a\x7bx:1,2\x7d\nb , [c \x7b".toList = .error (.chain ⟨none, "[c".toList⟩) ∧
      lastChain "a\x7bx:1,2\x7d\nb , [c ".toList = "[c".toList ∧
      ∃ i, StopsAt "a\x7bx:1,2\x7d\nb , [c \x7b".toList (.chain ⟨none, "[c".toList⟩) i :=
  ⟨rfl, rfl, exists_stopsAt rfl⟩

end Sheet
end StyleNest
