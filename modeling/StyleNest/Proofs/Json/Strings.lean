import StyleNest.Json.Reader
import StyleNest.Proofs.Text.Numeral

/-!
Strings of JSON read back.

Each character is escaped for itself, and what its escape spells is told from what follows: an
escape has a fixed length, and the units of a character are no half of a pair with those of the
next one. So the inside of a string is decoded character by character, and no mark in it ends the
string early.
-/

namespace StyleNest

namespace Text

/-! ### ASCII -/

/-- A text of ASCII characters. -/
def IsAscii (s : Text) : Prop := ∀ c ∈ s, c.toNat < 0x80

/-- Lines of the ASCII characters that can be shown. -/
def IsAsciiLines (s : Text) : Prop := ∀ c ∈ s, c = '\n' ∨ 0x20 ≤ c.toNat ∧ c.toNat < 0x7F

-- Deciding it goes through the text, not through all characters.
instance (s : Text) : Decidable (IsAsciiLines s) := List.decidableBAll _ s

namespace IsAsciiLines

variable {c : Char} {s t : Text}

lemma cons (hc : IsAsciiLines [c]) (hs : IsAsciiLines s) : IsAsciiLines (c :: s) :=
  List.forall_mem_cons.mpr ⟨hc c (by simp), hs⟩

lemma append (hs : IsAsciiLines s) (ht : IsAsciiLines t) : IsAsciiLines (s ++ t) :=
  List.forall_mem_append.mpr ⟨hs, ht⟩

lemma flatMap {α : Type*} {f : α → Text} {l : List α} (h : ∀ x ∈ l, IsAsciiLines (f x)) :
    IsAsciiLines (l.flatMap f) := by
  intro c hc
  obtain ⟨x, hx, hc⟩ := List.mem_flatMap.mp hc
  exact h x hx c hc

lemma isAscii (h : IsAsciiLines s) : IsAscii s := by
  intro c hc
  rcases h c hc with rfl | hc
  · decide
  · omega

end IsAsciiLines

end Text

namespace Json

open Text

/-! ### Codes -/

variable {c : Char} {s t : Text}

lemma codes?_unit {u : Nat} (h : u < 0x10000) (t : Text) :
    codes? (backslash :: 'u' :: hex 4 u ++ t) = (u :: ·) <$> codes? t := by
  have hvalue : hexValue? (hex 4 u) = some u := hexValue?_hex h
  obtain ⟨a, b, c, d, e⟩ : ∃ a b c d, hex 4 u = [a, b, c, d] := ⟨_, _, _, _, rfl⟩
  rw [e] at hvalue ⊢
  change (hexValue? [a, b, c, d]).bind (fun n => (n :: ·) <$> codes? t) = _
  rw [hvalue]
  rfl

lemma codes?_unitEscapes {us : List Nat} (h : ∀ u ∈ us, u < 0x10000) (t : Text) :
    codes? ((us.flatMap fun u => backslash :: 'u' :: hex 4 u) ++ t) = (us ++ ·) <$> codes? t := by
  induction us with
  | nil => simp
  | cons u us ih =>
    rw [List.forall_mem_cons] at h
    rw [List.flatMap_cons, List.append_assoc, codes?_unit h.1, ih h.2, Functor.map_map]
    rfl

lemma units_of_lt (h : c.toNat < 0x10000) : units c = [c.toNat] := if_pos h

lemma lt_of_mem_units {u : Nat} (h : u ∈ units c) : u < 0x10000 := by
  have hc := (toNat_lt c).1
  simp only [units] at h
  split at h
  · rw [List.mem_singleton.mp h]
    assumption
  · simp only [List.mem_cons, List.not_mem_nil, or_false] at h
    omega

/-- The letter of a short escape stands for its character. -/
lemma letterValue?_of_lookup {letter : Char} (h : shortEscapes.lookup c = some letter) :
    letterValue? letter = some c ∧ letter ≠ 'u' ∧ IsAsciiLines [letter] ∧
      c.toNat < 0x10000 := by
  have hall : ∀ p ∈ shortEscapes, letterValue? p.2 = some p.1 ∧ p.2 ≠ 'u' ∧
      IsAsciiLines [p.2] ∧ p.1.toNat < 0x10000 := by
    decide
  obtain ⟨l, l', e, -⟩ := List.lookup_eq_some_iff.mp h
  exact hall (c, letter) (by rw [e]; simp)

lemma codes?_letter {letter : Char} (h : letterValue? letter = some c) (hu : letter ≠ 'u')
    (t : Text) : codes? (backslash :: letter :: t) = (c.toNat :: ·) <$> codes? t := by
  rw [backslash, codes?.eq_3 _ _ fun _ _ _ _ _ e _ => hu e, h]
  rfl

lemma codes?_plain (hc : c ≠ backslash) (hl : 0x20 ≤ c.toNat) (t : Text) :
    codes? (c :: t) = (c.toNat :: ·) <$> codes? t := by
  rw [codes?.eq_4 _ _ (fun _ _ _ _ _ e _ => hc e) fun _ _ e _ => hc e, if_neg]
  rintro (e | e)
  · exact hc e
  · omega

/-- How a character is written: with a letter, as it is, or by its units. -/
inductive Spelling (c : Char) : Prop where
  | letter {letter : Char} :
      escaped c = [backslash, letter] → letterValue? letter = some c → letter ≠ 'u' →
      IsAsciiLines [letter] → c.toNat < 0x10000 → Spelling c
  | plain :
      escaped c = [c] → c ≠ doubleMark → c ≠ backslash → 0x20 ≤ c.toNat → c.toNat < 0x7F →
      Spelling c
  | units : escaped c = ((units c).flatMap fun u => backslash :: 'u' :: hex 4 u) → Spelling c

lemma spelling (c : Char) : Spelling c := by
  cases h : shortEscapes.lookup c with
  | some letter =>
    obtain ⟨hv, hu, hl, hc⟩ := letterValue?_of_lookup h
    exact .letter (by rw [escaped, h]) hv hu hl hc
  | none =>
    have hne : ∀ p ∈ shortEscapes, c ≠ p.1 := fun p hp => by
      simpa using List.lookup_eq_none_iff.mp h p hp
    by_cases hp : 0x20 ≤ c.toNat ∧ c.toNat ≤ 0x7E
    · refine .plain ?_ (hne (doubleMark, doubleMark) (by decide))
        (hne (backslash, backslash) (by decide)) hp.1 (by omega)
      simp only [escaped, h, if_pos hp]
    · refine .units ?_
      simp only [escaped, h, if_neg hp]

/-- The codes of an escaped character are its units. -/
lemma codes?_escaped (c : Char) (t : Text) :
    codes? (escaped c ++ t) = (units c ++ ·) <$> codes? t := by
  cases spelling c with
  | letter e hv hu _ hc =>
    rw [e, units_of_lt hc]
    exact codes?_letter hv hu t
  | plain e _ hc hl hu =>
    rw [e, units_of_lt (by omega)]
    exact codes?_plain hc hl t
  | units e =>
    rw [e]
    exact codes?_unitEscapes (fun u hu => lt_of_mem_units hu) t

lemma codes?_escapes (s : Text) : codes? (s.flatMap escaped) = some (s.flatMap units) := by
  induction s with
  | nil => rfl
  | cons c s ih =>
    rw [List.flatMap_cons, codes?_escaped, ih]
    rfl

/-! ### Characters from their units -/

lemma char?_toNat (c : Char) : char? c.toNat = some c := by
  have hvalid : c.toNat.isValidChar := c.valid
  rw [char?, if_pos hvalid, Char.ofNat_toNat]

/-- A character is found again from its units, whatever units follow. -/
lemma joinUnits?_units (c : Char) (ns : List Nat) :
    joinUnits? (units c ++ ns) = (c :: ·) <$> joinUnits? ns := by
  obtain ⟨hc, hpair⟩ := toNat_lt c
  by_cases h : c.toNat < 0x10000
  · rw [units_of_lt h]
    cases ns with
    | nil =>
      change (char? c.toNat).bind (fun d => some [d]) = _
      rw [char?_toNat]
      rfl
    | cons n ns =>
      have hno : ¬ (0xD800 ≤ c.toNat ∧ c.toNat < 0xDC00 ∧ 0xDC00 ≤ n ∧ n < 0xE000) := by omega
      rw [List.singleton_append, joinUnits?, if_neg hno, char?_toNat]
      rfl
  · have hunits : units c =
        [0xD800 + (c.toNat - 0x10000) / 0x400, 0xDC00 + (c.toNat - 0x10000) % 0x400] := if_neg h
    have hjoined : 0x10000 + (0xD800 + (c.toNat - 0x10000) / 0x400 - 0xD800) * 0x400 +
        (0xDC00 + (c.toNat - 0x10000) % 0x400 - 0xDC00) = c.toNat := by omega
    rw [hunits, List.cons_append, List.singleton_append, joinUnits?, if_pos (by omega), hjoined,
      char?_toNat]
    rfl

lemma unescape?_escapes (s : Text) : unescape? (s.flatMap escaped) = some s := by
  rw [unescape?, codes?_escapes, Option.bind_some]
  induction s with
  | nil => rfl
  | cons c s ih =>
    rw [List.flatMap_cons, joinUnits?_units, ih]
    rfl

/-! ### The inside of a string -/

/-- What may stand in a string: no mark and no backslash but in an escape. -/
inductive IsRaw : Text → Prop where
  | nil : IsRaw []
  | plain {c : Char} {s : Text} : c ≠ doubleMark → c ≠ backslash → IsRaw s → IsRaw (c :: s)
  | escape {c : Char} {s : Text} : IsRaw s → IsRaw (backslash :: c :: s)

lemma IsRaw.append (hs : IsRaw s) (ht : IsRaw t) : IsRaw (s ++ t) := by
  induction hs with
  | nil => exact ht
  | plain h h' _ ih => exact .plain h h' ih
  | escape _ ih => exact .escape ih

lemma IsRaw.flatMap {α : Type*} {f : α → Text} {l : List α} (h : ∀ x ∈ l, IsRaw (f x)) :
    IsRaw (l.flatMap f) := by
  induction l with
  | nil => exact .nil
  | cons x l ih =>
    rw [List.forall_mem_cons] at h
    exact h.1.append (ih h.2)

lemma isRaw_of_forall (h : ∀ c ∈ s, c ≠ doubleMark ∧ c ≠ backslash) : IsRaw s := by
  induction s with
  | nil => exact .nil
  | cons c s ih =>
    rw [List.forall_mem_cons] at h
    exact .plain h.1.1 h.1.2 (ih h.2)

lemma isRaw_hex (w n : Nat) : IsRaw (hex w n) := by
  refine isRaw_of_forall fun c hc => ?_
  obtain ⟨d, hd, rfl⟩ := exists_digit_of_mem_hex hc
  have hall : ∀ d < 16, Nat.digitChar d ≠ doubleMark ∧ Nat.digitChar d ≠ backslash := by decide
  exact hall d hd

lemma isRaw_escaped (c : Char) : IsRaw (escaped c) := by
  cases spelling c with
  | letter e =>
    rw [e]
    exact .escape .nil
  | plain e h h' =>
    rw [e]
    exact .plain h h' .nil
  | units e =>
    rw [e]
    exact .flatMap fun u _ => .escape (isRaw_hex 4 u)

/-! ### Characters of a string -/

lemma isAsciiLines_hex (w n : Nat) : IsAsciiLines (hex w n) := by
  intro c hc
  obtain ⟨d, hd, rfl⟩ := exists_digit_of_mem_hex hc
  have hall : ∀ d < 16, IsAsciiLines [Nat.digitChar d] := by decide
  exact hall d hd _ (by simp)

lemma isAsciiLines_escaped (c : Char) : IsAsciiLines (escaped c) := by
  have hbackslash : IsAsciiLines [backslash] := by decide
  cases spelling c with
  | letter e _ _ hl =>
    rw [e]
    exact .cons hbackslash hl
  | plain e _ _ hl hu =>
    rw [e]
    intro x hx
    rw [List.mem_singleton.mp hx]
    exact .inr ⟨hl, hu⟩
  | units e =>
    rw [e]
    exact .flatMap fun u _ => .cons hbackslash (.cons (by decide) (isAsciiLines_hex 4 u))

lemma isAsciiLines_string (s : Text) : IsAsciiLines (string s) := by
  have hmark : IsAsciiLines [doubleMark] := by decide
  have hescapes : IsAsciiLines (s.flatMap escaped) := .flatMap fun c _ => isAsciiLines_escaped c
  exact (IsAsciiLines.cons hmark hescapes).append hmark

end Json
end StyleNest
