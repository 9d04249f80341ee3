import Mathlib.Data.List.Basic
import StyleNest.Text.Basic

/-!
Texts with the blanks taken off their ends.

Trimming takes nothing but blanks away. So what a text begins with stays if it is no blank, and
blanks that are put behind a text are gone again if the text ends in none.
-/

namespace StyleNest.Text

lemma mem_of_mem_trimLeft {s : Text} {c : Char} (h : c ∈ trimLeft s) : c ∈ s :=
  (List.dropWhile_sublist isBlank).mem h

lemma mem_of_mem_trim {s : Text} {c : Char} (h : c ∈ trim s) : c ∈ s := by
  have h := mem_of_mem_trimLeft (List.mem_reverse.mp h)
  exact mem_of_mem_trimLeft (List.mem_reverse.mp h)

lemma trimLeft_cons_of_isBlank {s : Text} {c : Char} (h : isBlank c = true) :
    trimLeft (c :: s) = trimLeft s := by
  rw [trimLeft, List.dropWhile_cons, if_pos h, ← trimLeft]

lemma trimLeft_cons_of_not_isBlank {s : Text} {c : Char} (h : isBlank c = false) :
    trimLeft (c :: s) = c :: s := by
  rw [trimLeft, List.dropWhile_cons, h]
  rfl

lemma trimLeft_of_head? {s : Text} (h : ∃ c ∈ s.head?, isBlank c = false) : trimLeft s = s := by
  obtain ⟨c, hc, hb⟩ := h
  refine trimLeft_eq_self_iff.mpr fun x hx => ?_
  rwa [Option.mem_unique hx hc]

lemma trimLeft_append_of_blank {w : Text} (hw : ∀ c ∈ w, isBlank c = true) (s : Text) :
    trimLeft (w ++ s) = trimLeft s := by
  induction w with
  | nil => rfl
  | cons c w ih =>
    rw [List.cons_append, trimLeft_cons_of_isBlank (hw c (by simp))]
    exact ih fun x hx => hw x (by simp [hx])

lemma exists_eq_trimRight_append (s : Text) :
    ∃ w, (∀ c ∈ w, isBlank c = true) ∧ s = trimRight s ++ w := by
  refine ⟨(s.reverse.takeWhile isBlank).reverse, fun c hc => ?_, ?_⟩
  · exact List.all_eq_true.mp List.all_takeWhile c (List.mem_reverse.mp hc)
  · rw [trimRight, trimLeft, ← List.reverse_append, List.takeWhile_append_dropWhile,
      List.reverse_reverse]

/-- Blanks at the end of a text are not what it begins with, if it begins with no blank. -/
lemma head?_of_append_blank {s w : Text} {c : Char} (hw : ∀ x ∈ w, isBlank x = true)
    (h : c ∈ (s ++ w).head?) (hc : isBlank c = false) : c ∈ s.head? := by
  cases s with
  | nil =>
    rw [hw c (List.mem_of_mem_head? h)] at hc
    cases hc
  | cons x s => exact h

/-- What begins with no blank still begins so when it is trimmed. -/
lemma head?_trim {s : Text} {c : Char} (hs : c ∈ s.head?) (hc : isBlank c = false) :
    c ∈ (trim s).head? := by
  have hleft : trimLeft s = s := trimLeft_of_head? ⟨c, hs, hc⟩
  obtain ⟨w, hw, e⟩ := exists_eq_trimRight_append s
  rw [e] at hs
  rw [trim, hleft]
  exact head?_of_append_blank hw hs hc

/-! ### Ends of texts -/

/-- A text that does not end in a blank. -/
def EndsFilled (s : Text) : Prop := ∀ c ∈ s.getLast?, isBlank c = false

lemma endsFilled_singleton {c : Char} (h : isBlank c = false) : EndsFilled [c] := by
  intro x hx
  rwa [← Option.mem_some_iff.mp hx]

lemma EndsFilled.append_of_ne_nil {t : Text} (h : EndsFilled t) (ht : t ≠ []) (s : Text) :
    EndsFilled (s ++ t) := by
  intro c hc
  rw [List.getLast?_append_of_ne_nil s ht] at hc
  exact h c hc

lemma EndsFilled.append {s t : Text} (hs : EndsFilled s) (ht : EndsFilled t) :
    EndsFilled (s ++ t) := by
  by_cases h : t = []
  · rwa [h, List.append_nil]
  · exact ht.append_of_ne_nil h s

lemma endsFilled_of_forall {s : Text} (h : ∀ c ∈ s, isBlank c = false) : EndsFilled s :=
  fun c hc => h c (List.mem_of_mem_getLast? hc)

/-- Blanks behind a text that ends in none are trimmed off its end. -/
lemma trimRight_append_of_blank {s w : Text} (hlast : EndsFilled s)
    (hw : ∀ c ∈ w, isBlank c = true) : trimRight (s ++ w) = s := by
  have hright : trimLeft s.reverse = s.reverse := by
    refine trimLeft_eq_self_iff.mpr fun x hx => hlast x ?_
    rwa [List.head?_reverse] at hx
  rw [trimRight, List.reverse_append,
    trimLeft_append_of_blank fun x hx => hw x (List.mem_reverse.mp hx), hright,
    List.reverse_reverse]

/-- Blanks behind a text that has none at its ends are trimmed off. -/
lemma trim_append_of_blank {s w : Text} (hhead : ∃ c ∈ s.head?, isBlank c = false)
    (hlast : EndsFilled s) (hw : ∀ c ∈ w, isBlank c = true) : trim (s ++ w) = s := by
  obtain ⟨c, hc, hb⟩ := hhead
  have hleft : trimLeft (s ++ w) = s ++ w :=
    trimLeft_of_head? ⟨c, by rw [List.head?_append, hc]; rfl, hb⟩
  rw [trim, hleft, trimRight_append_of_blank hlast hw]

end StyleNest.Text
