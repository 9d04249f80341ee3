/-!
Texts as lists of characters: every length, place and beginning counts characters. Blanks are taken
off the ends of a text.
-/

namespace StyleNest

abbrev Text := List Char

namespace Text

/-- A text written `n` times, for every `n`: that a machine has room for so many characters only is
left out. -/
def times (n : Nat) (s : Text) : Text := (List.replicate n s).flatten

@[simp] theorem times_zero (s : Text) : times 0 s = [] := rfl

theorem times_succ (n : Nat) (s : Text) : times (n + 1) s = s ++ times n s := by
  simp [times, List.replicate_succ]

theorem times_add (m n : Nat) (s : Text) : times (m + n) s = times m s ++ times n s := by
  rw [times, ← List.replicate_append_replicate, List.flatten_append, times, times]

/-! ### Blanks -/

/-- White space of every kind: the separators, and the control characters that break a line. -/
def isBlank (c : Char) : Bool :=
  let n := c.toNat
  (0x09 ≤ n && n ≤ 0x0D) || (0x1C ≤ n && n ≤ 0x20) || n == 0x85 || n == 0xA0 || n == 0x1680 ||
    (0x2000 ≤ n && n ≤ 0x200A) || n == 0x2028 || n == 0x2029 || n == 0x202F || n == 0x205F ||
    n == 0x3000

def trimLeft (s : Text) : Text := s.dropWhile isBlank

def trimRight (s : Text) : Text := (trimLeft s.reverse).reverse

def trim (s : Text) : Text := trimRight (trimLeft s)

/-- A text does not change when it begins with no blank. -/
theorem trimLeft_eq_self_iff {s : Text} :
    trimLeft s = s ↔ ∀ c ∈ s.head?, isBlank c = false := by
  cases s with
  | nil => simp [trimLeft]
  | cons c s =>
    cases h : isBlank c
    · simp [trimLeft, h]
    · simp only [trimLeft, List.dropWhile_cons, h, if_true, List.head?_cons, Option.mem_def,
        Option.some.injEq, forall_eq', Bool.true_eq_false, iff_false]
      intro e
      have := congrArg List.length e
      have := (List.dropWhile_sublist (l := s) isBlank).length_le
      simp at *
      omega

end Text
end StyleNest
