import Mathlib.Data.List.Basic
import StyleNest.Text.Line

/-!
Line ends made one, and what else is done to a text.

A text may be cut anywhere but inside a line end, and each part has its line ends made one for
itself. Both characters of a line end are blanks, so trimming comes before or after alike.
-/

namespace StyleNest.Text

/-- A carriage return that stands alone is a line feed. -/
def unifyNewline (c : Char) : Char := if c = '\r' then '\n' else c

lemma unifyNewline_of_ne {c : Char} (h : c ≠ '\r') : unifyNewline c = c := if_neg h

@[simp] lemma isBlank_unifyNewline (c : Char) : isBlank (unifyNewline c) = isBlank c := by
  by_cases h : c = '\r'
  · subst h
    rfl
  · rw [unifyNewline_of_ne h]

variable {c : Char} {s t : Text}

lemma unifyNewlines_return (h : s.head? ≠ some '\n') :
    unifyNewlines ('\r' :: s) = '\n' :: unifyNewlines s := by
  rw [unifyNewlines]
  rintro s' rfl
  exact h rfl

lemma unifyNewlines_cons (h : c ≠ '\r') : unifyNewlines (c :: s) = c :: unifyNewlines s := by
  rw [unifyNewlines]
  · exact fun _ hc _ => h hc
  · exact h

lemma unifyNewlines_singleton (c : Char) : unifyNewlines [c] = [unifyNewline c] := by
  by_cases h : c = '\r'
  · subst h
    rfl
  · rw [unifyNewlines_cons h, unifyNewline_of_ne h]
    rfl

/-- A text without carriage returns stays as it is. -/
lemma unifyNewlines_eq_self (h : '\r' ∉ s) : unifyNewlines s = s := by
  induction s with
  | nil => rfl
  | cons c s ih =>
    rw [List.mem_cons, not_or] at h
    rw [unifyNewlines_cons (Ne.symm h.1), ih h.2]

/-- A text is cut between two line ends, not within one. -/
lemma unifyNewlines_append (h : s.getLast? = some '\r' → t.head? ≠ some '\n') :
    unifyNewlines (s ++ t) = unifyNewlines s ++ unifyNewlines t := by
  induction s using unifyNewlines.induct with
  | case1 => rfl
  | case2 s ih =>
    have hs := ih fun hl => h (by simp [List.getLast?_cons, hl])
    simp only [List.cons_append, unifyNewlines, hs]
  | case3 s hn ih =>
    have hs : s.head? ≠ some '\n' := by
      cases s with
      | nil => simp
      | cons d s => exact fun e => hn s (by simpa using e)
    have hst : (s ++ t).head? ≠ some '\n' := by
      cases s with
      | nil => exact h rfl
      | cons d s => exact hs
    rw [List.cons_append, unifyNewlines_return hst, unifyNewlines_return hs, List.cons_append,
      ih fun hl => h (by simp [List.getLast?_cons, hl])]
  | case4 c s hn hc ih =>
    rw [List.cons_append, unifyNewlines_cons hc, unifyNewlines_cons hc, List.cons_append,
      ih fun hl => h (by simp [List.getLast?_cons, hl])]

lemma unifyNewlines_ne_nil (h : s ≠ []) : unifyNewlines s ≠ [] := by
  cases s using unifyNewlines.induct with
  | case1 => exact absurd rfl h
  | _ => simp [unifyNewlines, *]

/-- Nothing new comes in but line feeds. -/
lemma mem_of_mem_unifyNewlines {d : Char} (h : d ∈ unifyNewlines s) (hd : d ≠ '\n') : d ∈ s := by
  induction s using unifyNewlines.induct with
  | case1 => cases h
  | case2 s ih =>
    rw [unifyNewlines] at h
    simp [ih ((List.mem_cons.mp h).resolve_left hd)]
  | case3 s hn ih =>
    rw [unifyNewlines.eq_3 s hn] at h
    simp [ih ((List.mem_cons.mp h).resolve_left hd)]
  | case4 c s hn hc ih =>
    rw [unifyNewlines_cons hc] at h
    exact List.mem_cons.mpr ((List.mem_cons.mp h).imp_right ih)

/-- Every carriage return has its line feed. -/
def ReturnsPaired (s : Text) : Prop := ∀ u v, s = u ++ '\r' :: v → v.head? = some '\n'

lemma returnsPaired_nil : ReturnsPaired [] := fun u v e => by simp at e

lemma returnsPaired_cons :
    ReturnsPaired (c :: s) ↔ (c = '\r' → s.head? = some '\n') ∧ ReturnsPaired s := by
  refine ⟨fun h => ⟨?_, fun u v e => h (c :: u) v (by rw [e]; rfl)⟩, ?_⟩
  · rintro rfl
    exact h [] s rfl
  · rintro ⟨hc, hs⟩ u v e
    cases u with
    | nil =>
      cases e
      exact hc rfl
    | cons d u => exact hs u v (List.cons_eq_cons.mp e).2

/-! ### Texts read backwards -/

/-- Line ends made one in a text that is kept latest first. -/
def unifyBack (t : Text) : Text := (unifyNewlines t.reverse).reverse

@[simp] lemma unifyBack_nil : unifyBack [] = [] := rfl

@[simp] lemma reverse_unifyBack (t : Text) : (unifyBack t).reverse = unifyNewlines t.reverse := by
  rw [unifyBack, List.reverse_reverse]

lemma unifyBack_cons (h : c = '\n' → t.head? ≠ some '\r') :
    unifyBack (c :: t) = unifyNewline c :: unifyBack t := by
  rw [unifyBack, List.reverse_cons, unifyNewlines_append, unifyNewlines_singleton]
  · simp [unifyBack]
  · rw [List.getLast?_reverse]
    exact fun hl e => h (by simpa using e) hl

/-- A line feed adds nothing to the carriage return before it. -/
lemma unifyBack_newline (t : Text) : unifyBack ('\n' :: '\r' :: t) = unifyBack ('\r' :: t) := by
  have hreturn : ('\n' :: '\r' :: t).reverse = t.reverse ++ ['\r', '\n'] := by simp
  have hpair : unifyNewlines (t.reverse ++ ['\r', '\n']) = unifyNewlines t.reverse ++ ['\n'] :=
    unifyNewlines_append (by simp)
  rw [unifyBack, hreturn, hpair, unifyBack_cons (by simp)]
  simp [unifyBack, unifyNewline]

/-! ### Blanks -/

lemma all_isBlank_unifyNewlines (s : Text) : (unifyNewlines s).all isBlank = s.all isBlank := by
  induction s using unifyNewlines.induct with
  | case1 => rfl
  | case2 s ih => simp [unifyNewlines, ih, isBlank]
  | case3 s _ ih => simp [unifyNewlines, ih, isBlank]
  | case4 c s hn hc ih => rw [unifyNewlines_cons hc, List.all_cons, List.all_cons, ih]

lemma all_isBlank_unifyBack (t : Text) : (unifyBack t).all isBlank = t.all isBlank := by
  rw [← List.all_reverse, reverse_unifyBack, all_isBlank_unifyNewlines, List.all_reverse]

lemma trimLeft_unifyNewlines (s : Text) :
    trimLeft (unifyNewlines s) = unifyNewlines (trimLeft s) := by
  have hfeed : ∀ u : Text, trimLeft ('\n' :: u) = trimLeft u := fun _ => rfl
  have hreturn : ∀ u : Text, trimLeft ('\r' :: u) = trimLeft u := fun _ => rfl
  induction s using unifyNewlines.induct with
  | case1 => rfl
  | case2 s ih => rw [unifyNewlines, hfeed, hreturn, hfeed, ih]
  | case3 s hn ih => rw [unifyNewlines.eq_3 s hn, hfeed, hreturn, ih]
  | case4 c s hn hc ih =>
    rw [unifyNewlines_cons hc]
    cases hb : isBlank c with
    | true => simpa [trimLeft, hb] using ih
    | false => simp [trimLeft, hb, unifyNewlines_cons hc]

lemma trimLeft_unifyBack (t : Text) : trimLeft (unifyBack t) = unifyBack (trimLeft t) := by
  induction t with
  | nil => rfl
  | cons c t ih =>
    by_cases h : c = '\n' ∧ t.head? = some '\r'
    · obtain ⟨rfl, ht⟩ := h
      obtain ⟨u, rfl⟩ := List.head?_eq_some_iff.mp ht
      rw [unifyBack_newline, ih]
      rfl
    · rw [unifyBack_cons fun hc ht => h ⟨hc, ht⟩]
      cases hb : isBlank c with
      | true => simpa [trimLeft, hb] using ih
      | false =>
        have hu : trimLeft (c :: t) = c :: t := by simp [trimLeft, hb]
        rw [hu, unifyBack_cons fun hc ht => h ⟨hc, ht⟩]
        simp [trimLeft, hb]

lemma trim_unifyNewlines (s : Text) : trim (unifyNewlines s) = unifyNewlines (trim s) := by
  have hback : ∀ u : Text, (unifyNewlines u).reverse = unifyBack u.reverse := fun u => by
    rw [unifyBack, List.reverse_reverse]
  rw [trim, trim, trimRight, trimRight, trimLeft_unifyNewlines, hback, trimLeft_unifyBack,
    reverse_unifyBack]

end StyleNest.Text
