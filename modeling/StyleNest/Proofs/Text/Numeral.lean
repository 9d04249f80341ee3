import Mathlib.Algebra.Group.Nat.Defs
import Mathlib.Data.List.Basic
import StyleNest.Text.Numeral

/-!
A number that is written in digits is read back. So no two numbers are written alike in decimal
digits, nor two that fit into so many hexadecimal ones.
-/

namespace StyleNest.Text

variable {c : Char} {s : Text}

/-! ### Decimal digits -/

lemma toNat_of_isDigit (h : c.isDigit = true) : 48 ≤ c.toNat ∧ c.toNat ≤ 57 := by
  simp only [Char.isDigit, Bool.and_eq_true, decide_eq_true_eq, ge_iff_le,
    UInt32.le_iff_toNat_le] at h
  exact h

lemma digitValue?_of_isDigit (h : c.isDigit = true) : digitValue? c = some (c.toNat - 48) := by
  obtain ⟨hl, hu⟩ := toNat_of_isDigit h
  have hfind : zeros.find? (fun z => z ≤ c.toNat && c.toNat < z + 10) = some 48 := by
    rw [zeros, List.find?_cons_of_pos]
    simp
    omega
  rw [digitValue?, hfind, Option.map_some]

lemma digitsFrom?_of_isDigit (hs : ∀ c ∈ s, c.isDigit = true) (value digits : Nat) :
    digitsFrom? value digits s = some (Nat.ofDigitChars 10 s value, digits + s.length) := by
  induction s generalizing value digits with
  | nil => simp [digitsFrom?]
  | cons c s ih =>
    rw [List.forall_mem_cons] at hs
    have hc : c ≠ '_' := by
      rintro rfl
      cases hs.1
    have hcons : digitsFrom? value digits (c :: s) =
        digitsFrom? (10 * value + (c.toNat - 48)) (digits + 1) s := by
      rw [digitsFrom?.eq_3 _ _ _ _ (fun _ _ e _ => hc e), digitValue?_of_isDigit hs.1]
      rfl
    have hlength : digits + 1 + s.length = digits + (c :: s).length := by
      rw [List.length_cons]
      omega
    rw [hcons, ih hs.2, hlength, Nat.ofDigitChars_cons]
    rfl

lemma isDigit_of_mem_natural {n : Nat} (h : c ∈ natural n) : c.isDigit = true :=
  Nat.isDigit_of_mem_toDigits (by decide) (by decide) h

lemma ofDigitChars_natural (n : Nat) : Nat.ofDigitChars 10 (natural n) 0 = n :=
  Nat.ofDigitChars_toDigits (by decide) (by decide)

lemma natural_inj {m n : Nat} (h : natural m = natural n) : m = n := by
  rw [← ofDigitChars_natural m, h, ofDigitChars_natural]

/-- A number ends before a comma. -/
lemma natural_append_inj {m n : Nat} {s t : Text}
    (h : natural m ++ ',' :: s = natural n ++ ',' :: t) : m = n ∧ s = t := by
  have hdigits : ∀ (n : Nat) (s : Text),
      (natural n ++ ',' :: s).takeWhile Char.isDigit = natural n := fun n s => by
    rw [List.takeWhile_append_of_pos fun c => isDigit_of_mem_natural]
    simp
  have hnatural : natural m = natural n := by rw [← hdigits m s, h, hdigits]
  rw [hnatural] at h
  exact ⟨natural_inj hnatural, (List.cons.inj (List.append_cancel_left h)).2⟩

lemma readNatural?_natural {n : Nat} (h : (natural n).length ≤ maxDigits) :
    readNatural? (natural n) = some n := by
  have hdigits : ∀ c ∈ natural n, c.isDigit = true := fun c => isDigit_of_mem_natural
  have hvalue : Nat.ofDigitChars 10 (natural n) 0 = n := ofDigitChars_natural n
  cases hn : natural n with
  | nil => exact absurd hn Nat.toDigits_ne_nil
  | cons c s =>
    rw [hn] at h hvalue hdigits
    rw [List.forall_mem_cons] at hdigits
    have hfirst : 10 * 0 + (c.toNat - '0'.toNat) = c.toNat - 48 := by simp
    rw [Nat.ofDigitChars_cons, hfirst] at hvalue
    rw [List.length_cons, Nat.add_comm] at h
    simp [readNatural?, digitValue?_of_isDigit hdigits.1, digitsFrom?_of_isDigit hdigits.2, hvalue,
      h]

lemma isPadding_eq_false_of_isDigit (h : c.isDigit = true) : isPadding c = false := by
  have hc := toNat_of_isDigit h
  have hb : isBlank c = false := by
    simp only [isBlank, Bool.or_eq_false_iff, Bool.and_eq_false_iff, decide_eq_false_iff_not,
      beq_eq_false_iff_ne]
    omega
  rw [isPadding, hb, Bool.false_and]

lemma dropWhile_isPadding (hs : ∀ c ∈ s, c.isDigit = true) : s.dropWhile isPadding = s := by
  cases s with
  | nil => rfl
  | cons c s => rw [List.dropWhile_cons, isPadding_eq_false_of_isDigit (hs c (by simp))]; rfl

lemma readSigned?_of_isDigit (hs : ∀ c ∈ s, c.isDigit = true) :
    readSigned? s = (readNatural? s).map Int.ofNat := by
  rw [readSigned?]
  · rintro t rfl
    cases hs '-' (by simp)
  · rintro t rfl
    cases hs '+' (by simp)

/-- A whole number that is not negative is read back if it has not too many digits. -/
theorem readInteger?_natural {n : Nat} (h : (natural n).length ≤ maxDigits) :
    readInteger? (natural n) = some (n : Int) := by
  have hdigits : ∀ c ∈ natural n, c.isDigit = true := fun c => isDigit_of_mem_natural
  have hreverse : ∀ c ∈ (natural n).reverse, c.isDigit = true := fun c hc =>
    hdigits c (List.mem_reverse.mp hc)
  rw [readInteger?, dropWhile_isPadding hdigits, dropWhile_isPadding hreverse, List.reverse_reverse,
    readSigned?_of_isDigit hdigits, readNatural?_natural h]
  rfl

/-! ### Hexadecimal digits -/

lemma hexDigit?_digitChar {d : Nat} (h : d < 16) : hexDigit? (Nat.digitChar d) = some d := by
  have all : ∀ d < 16, hexDigit? (Nat.digitChar d) = some d := by decide
  exact all d h

lemma exists_digit_of_mem_hex {w n : Nat} {c : Char} (h : c ∈ hex w n) :
    ∃ d < 16, c = Nat.digitChar d := by
  induction w generalizing n with
  | zero => cases h
  | succ w ih =>
    rcases List.mem_append.mp h with h | h
    · exact ih h
    · exact ⟨n % 16, Nat.mod_lt n (by omega), List.mem_singleton.mp h⟩

lemma hexValue?_snoc (s : Text) (c : Char) :
    hexValue? (s ++ [c]) = (hexValue? s).bind fun n => (hexDigit? c).map (16 * n + ·) := by
  simp [hexValue?, List.foldlM_append]

/-- A number that fits into its digits is read back. -/
lemma hexValue?_hex {w n : Nat} (h : n < 16 ^ w) : hexValue? (hex w n) = some n := by
  induction w generalizing n with
  | zero =>
    obtain rfl : n = 0 := by simpa using h
    rfl
  | succ w ih =>
    have hdiv : n / 16 < 16 ^ w := by
      rw [Nat.pow_succ] at h
      omega
    have hmod : n % 16 < 16 := Nat.mod_lt n (by omega)
    rw [hex, hexValue?_snoc, ih hdiv, Option.bind_some, hexDigit?_digitChar hmod, Option.map_some,
      Nat.div_add_mod]

/-! ### Codes of characters -/

lemma toNat_lt (c : Char) : c.toNat < 0x110000 ∧ ¬ (0xD800 ≤ c.toNat ∧ c.toNat < 0xE000) := by
  have h : c.toNat < 0xD800 ∨ 0xDFFF < c.toNat ∧ c.toNat < 0x110000 := c.valid
  omega

end StyleNest.Text
