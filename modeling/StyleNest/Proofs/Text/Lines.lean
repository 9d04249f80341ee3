import Mathlib.Algebra.GroupWithZero.Nat
import Mathlib.Data.List.Basic
import StyleNest.Text.Line

/-!
The lines of a text, and lines written one after the other.

What is written as one line is read as several if it holds line feeds of its own: each of them ends
a line as well. So the lines that were written are found again exactly if none of them holds one.
-/

namespace StyleNest.Text

/-- The lines of a text that a line feed ends, without their line feeds. -/
def endedLines (s : Text) : List Text := (s.splitOn '\n').dropLast

lemma splitOn_unlines (ls : List Text) :
    (unlines ls).splitOn '\n' = ls.flatMap (·.splitOn '\n') ++ [[]] := by
  induction ls with
  | nil => rfl
  | cons l ls ih =>
    have hcons : unlines (l :: ls) = l ++ '\n' :: unlines ls := by simp [unlines]
    rw [hcons, List.splitOn_append_cons_self, ih, List.flatMap_cons, List.append_assoc]

lemma endedLines_unlines (ls : List Text) :
    endedLines (unlines ls) = ls.flatMap (·.splitOn '\n') := by
  rw [endedLines, splitOn_unlines, List.dropLast_concat]

lemma length_splitOn (s : Text) : (s.splitOn '\n').length = 1 + s.count '\n' := by
  induction s with
  | nil => rfl
  | cons c s ih =>
    rw [List.splitOn_cons_eq_if_modifyHead]
    by_cases h : c = '\n'
    · simp [h, ih]
      omega
    · simp [h, ih]

lemma length_endedLines_unlines (ls : List Text) :
    (endedLines (unlines ls)).length = (ls.map fun l => 1 + l.count '\n').sum := by
  rw [endedLines_unlines, List.length_flatMap]
  simp only [length_splitOn]

lemma sum_succ_count (ls : List Text) :
    (ls.map fun l => 1 + l.count '\n').sum = ls.length + (ls.map fun l => l.count '\n').sum := by
  induction ls with
  | nil => rfl
  | cons l ls ih =>
    simp only [List.map_cons, List.sum_cons, List.length_cons, ih]
    omega

lemma length_endedLines_unlines_iff {ls : List Text} :
    (endedLines (unlines ls)).length = ls.length ↔ ∀ l ∈ ls, '\n' ∉ l := by
  rw [length_endedLines_unlines, sum_succ_count, Nat.add_eq_left,
    List.sum_eq_zero_iff_forall_eq_nat]
  simp [List.count_eq_zero]

/-- Lines are found again if a line feed stands only at the end of each. -/
lemma endedLines_unlines_iff {ls : List Text} :
    endedLines (unlines ls) = ls ↔ ∀ l ∈ ls, '\n' ∉ l := by
  constructor
  · intro h
    exact length_endedLines_unlines_iff.mp (congrArg List.length h)
  · intro h
    calc endedLines (unlines ls)
        = ls.flatMap (·.splitOn '\n') := endedLines_unlines ls
      _ = ls.flatMap fun l => [l] :=
          List.flatMap_congr fun l hl => List.splitOn_eq_singleton (h l hl)
      _ = ls := List.flatMap_singleton' ls

end StyleNest.Text
