import Mathlib.Data.List.Infix
import StyleNest.Text.TerminalCode

/-!
What is left of a text without its codes for a terminal.

Each code is dropped, whatever stands around it, and nothing else is. So a text is left alone
exactly when no code is in it.
-/

namespace StyleNest.Text

def isParameter (c : Char) : Bool := c == ';' || c == '?' || c.isDigit

/-- A code: an escape with its bracket, parameters, and a letter that ends them. -/
def IsCode (s : Text) : Prop :=
  ∃ (ps : Text) (c : Char), (∀ p ∈ ps, isParameter p = true) ∧ c.isAlpha = true ∧
    s = escape :: '[' :: (ps ++ [c])

def HoldsCode (s : Text) : Prop := ∃ code, IsCode code ∧ code <:+: s

/-- The beginning of a code, read backwards, or nothing yet. -/
inductive Opens : Text → Prop where
  | nil : Opens []
  | escape : Opens [escape]
  | bracket (ps : Text) : (∀ p ∈ ps, isParameter p = true) → Opens (ps ++ ['[', Text.escape])

variable {s t held : Text} {c : Char}

lemma Opens.extend (h : Opens held) (hne : held ≠ []) (hc : extendsCode held c = true) :
    Opens (c :: held) := by
  cases h with
  | nil => exact absurd rfl hne
  | escape =>
    obtain rfl : c = '[' := by simpa [extendsCode] using hc
    exact .bracket [] (by simp)
  | bracket ps hps =>
    have hp : isParameter c = true := by simpa [extendsCode, isParameter] using hc
    exact .bracket (c :: ps) (List.forall_mem_cons.mpr ⟨hp, hps⟩)

lemma Opens.isCode (h : Opens held) (hl : 1 < held.length) (hc : c.isAlpha = true) :
    IsCode (held.reverse ++ [c]) := by
  cases h with
  | nil => simp at hl
  | escape => simp at hl
  | bracket ps hps => exact ⟨ps.reverse, c, by simpa using hps, hc, by simp⟩

lemma HoldsCode.append_left (h : HoldsCode t) (s : Text) : HoldsCode (s ++ t) := by
  obtain ⟨code, hcode, hin⟩ := h
  exact ⟨code, hcode, hin.trans (List.suffix_append s t).isInfix⟩

lemma dropCodesFrom_of_not_holdsCode (ho : Opens held) (h : ¬ HoldsCode (held.reverse ++ s)) :
    dropCodesFrom held s = held.reverse ++ s := by
  induction s generalizing held with
  | nil => simp [dropCodesFrom]
  | cons c s ih =>
    have hrest : ¬ HoldsCode (c :: s) := fun hs => h (hs.append_left _)
    have hnext : ¬ HoldsCode s := fun hs => hrest (hs.append_left [c])
    rw [dropCodesFrom]
    split_ifs with hc hn hx ha
    · subst hc
      rw [ih .escape hrest]
      rfl
    · rw [ih .nil hnext, hn]
      rfl
    · have e : held.reverse ++ c :: s = (c :: held).reverse ++ s := by simp
      rw [e] at h ⊢
      exact ih (ho.extend hn hx) h
    · refine absurd ⟨_, ho.isCode ha.1 ha.2, List.IsPrefix.isInfix ⟨s, ?_⟩⟩ h
      simp
    · rw [ih .nil hnext]
      rfl

lemma dropCodesFrom_append_escape (held s t : Text) :
    dropCodesFrom held (s ++ escape :: t) = dropCodesFrom held s ++ dropCodesFrom [escape] t := by
  induction s generalizing held with
  | nil => simp [dropCodesFrom]
  | cons c s ih =>
    rw [List.cons_append, dropCodesFrom, dropCodesFrom]
    split_ifs <;> simp [ih]

lemma isDigit_eq_false_of_isAlpha (h : c.isAlpha = true) : c.isDigit = false := by
  unfold Char.isAlpha Char.isUpper Char.isLower at h
  simp only [Bool.or_eq_true, Bool.and_eq_true, decide_eq_true_eq, ge_iff_le,
    UInt32.le_iff_toNat_le] at h
  change (65 ≤ c.toNat ∧ c.toNat ≤ 90) ∨ (97 ≤ c.toNat ∧ c.toNat ≤ 122) at h
  unfold Char.isDigit
  simp only [Bool.and_eq_false_iff, decide_eq_false_iff_not, ge_iff_le, UInt32.le_iff_toNat_le]
  change ¬ 48 ≤ c.toNat ∨ ¬ c.toNat ≤ 57
  omega

lemma isParameter_eq_false_of_isAlpha (h : c.isAlpha = true) : isParameter c = false := by
  have hne : ∀ d : Char, d.isAlpha = false → (c == d) = false := fun d hd =>
    beq_eq_false_iff_ne.mpr fun e => by simp [← e, h] at hd
  rw [isParameter, hne ';' rfl, hne '?' rfl, isDigit_eq_false_of_isAlpha h]
  rfl

lemma extendsCode_of_one_lt (h : 1 < held.length) (c : Char) :
    extendsCode held c = isParameter c := by
  rw [extendsCode, if_neg (by omega), isParameter]

/-- Behind a bracket, parameters and a letter make a code. -/
lemma dropCodesFrom_parameters {ps : Text} (hl : 1 < held.length)
    (hps : ∀ p ∈ ps, isParameter p = true) (hc : c.isAlpha = true) (t : Text) :
    dropCodesFrom held (ps ++ c :: t) = dropCodes t := by
  induction ps generalizing held with
  | nil =>
    have hescape : c ≠ escape := by
      rintro rfl
      cases hc
    have hextend : extendsCode held c = false := by
      rw [extendsCode_of_one_lt hl, isParameter_eq_false_of_isAlpha hc]
    rw [List.nil_append, dropCodesFrom, if_neg hescape,
      if_neg (List.ne_nil_of_length_pos (by omega)), hextend, if_neg (by simp), if_pos ⟨hl, hc⟩]
    rfl
  | cons p ps ih =>
    rw [List.forall_mem_cons] at hps
    have hescape : p ≠ escape := by
      rintro rfl
      cases hps.1
    have hextend : extendsCode held p = true := by
      rw [extendsCode_of_one_lt hl, hps.1]
    rw [List.cons_append, dropCodesFrom, if_neg hescape,
      if_neg (List.ne_nil_of_length_pos (by omega)), if_pos hextend]
    exact ih (by simp; omega) hps.2

/-- A code is dropped wherever it stands. -/
lemma dropCodes_append_code {code : Text} (h : IsCode code) (s t : Text) :
    dropCodes (s ++ code ++ t) = dropCodes s ++ dropCodes t := by
  obtain ⟨ps, c, hps, hc, rfl⟩ := h
  have e : s ++ escape :: '[' :: (ps ++ [c]) ++ t = s ++ escape :: ('[' :: (ps ++ c :: t)) := by
    simp
  have hbracket : dropCodesFrom [escape] ('[' :: (ps ++ c :: t)) =
      dropCodesFrom ['[', escape] (ps ++ c :: t) := rfl
  rw [e, dropCodes, dropCodesFrom_append_escape, hbracket,
    dropCodesFrom_parameters (by simp) hps hc]
  rfl

lemma length_dropCodesFrom_le (held s : Text) :
    (dropCodesFrom held s).length ≤ held.length + s.length := by
  induction s generalizing held with
  | nil => simp [dropCodesFrom]
  | cons c s ih =>
    have hescape := ih [c]
    have hextend := ih (c :: held)
    have hnil := ih []
    rw [dropCodesFrom]
    split_ifs <;> simp at * <;> omega

/-- **A text is left alone exactly when it holds no code.** -/
theorem dropCodes_eq_self_iff (s : Text) : dropCodes s = s ↔ ¬ HoldsCode s := by
  constructor
  · rintro h ⟨code, hcode, u, v, rfl⟩
    have hlength : (dropCodes u).length + (dropCodes v).length =
        u.length + (code.length + v.length) := by
      rw [dropCodes_append_code hcode] at h
      simpa using congrArg List.length h
    have hu : (dropCodes u).length ≤ u.length := by
      simpa [dropCodes] using length_dropCodesFrom_le [] u
    have hv : (dropCodes v).length ≤ v.length := by
      simpa [dropCodes] using length_dropCodesFrom_le [] v
    have hcode : 0 < code.length := by
      obtain ⟨ps, c, -, -, rfl⟩ := hcode
      simp
    omega
  · intro h
    exact dropCodesFrom_of_not_holdsCode .nil h

end StyleNest.Text
