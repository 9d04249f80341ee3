import StyleNest.Text.Basic

/-!
Texts without the codes that only a terminal obeys, such as those for colours: an escape and a
bracket, then digits, semicolons and question marks, then a letter.
-/

namespace StyleNest.Text

def escape : Char := '\x1b'

/-- What `c` may extend: an escape by a bracket, and an escape with its bracket by parameters. -/
def extendsCode (held : Text) (c : Char) : Bool :=
  if held.length = 1 then c == '[' else c == ';' || c == '?' || c.isDigit

/-- `held` is the beginning of a code, read backwards; it is text after all if no code comes of
it. -/
def dropCodesFrom (held : Text) : Text → Text
  | [] => held.reverse
  | c :: s =>
    if c = escape then held.reverse ++ dropCodesFrom [c] s
    else if held = [] then c :: dropCodesFrom [] s
    else if extendsCode held c then dropCodesFrom (c :: held) s
    else if 1 < held.length ∧ c.isAlpha then dropCodesFrom [] s
    else held.reverse ++ c :: dropCodesFrom [] s

def dropCodes (s : Text) : Text := dropCodesFrom [] s

/-- A text without an escape stays as it is. -/
theorem dropCodes_eq_self {s : Text} (h : escape ∉ s) : dropCodes s = s := by
  unfold dropCodes
  induction s with
  | nil => rfl
  | cons c s ih =>
    rw [List.mem_cons, not_or] at h
    rw [dropCodesFrom, if_neg (Ne.symm h.1), if_pos rfl, ih h.2]

end StyleNest.Text
