import StyleNest.Proofs.Text.Numeral
import StyleNest.Text.Quoted

/-!
Quoted texts read back.

What a character is written as says where it ends: a letter behind a backslash tells how many digits
follow. So quoted text is taken off the front of any text character by character, and its second
mark is the first one that no backslash escapes. All of it can be shown.
-/

namespace StyleNest.Text

variable {mark c : Char} {s t : Text}

/-! ### Characters that can be shown -/

def IsShown (s : Text) : Prop := ∀ c ∈ s, isPrintable c = true

lemma IsShown.append (hs : IsShown s) (ht : IsShown t) : IsShown (s ++ t) :=
  List.forall_mem_append.mpr ⟨hs, ht⟩

/-- Control characters, the line ends among them. -/
def IsControl (c : Char) : Prop := c.toNat < 0x20 ∨ 0x7F ≤ c.toNat ∧ c.toNat < 0xA0

lemma isPrintable_iff :
    isPrintable c = true ↔ ∀ r ∈ hiddenRanges, ¬ (r.1 ≤ c.toNat ∧ c.toNat ≤ r.2) := by
  simp [isPrintable]

lemma not_isControl_of_isPrintable (h : isPrintable c = true) : ¬ IsControl c := by
  rw [isPrintable_iff] at h
  have hlow := h (0x0, 0x1F) (by decide)
  have hhigh := h (0x7F, 0xA0) (by decide)
  unfold IsControl
  omega

/-- The ASCII characters that can be shown. -/
def isAsciiShown (c : Char) : Bool := 0x20 ≤ c.toNat && c.toNat < 0x7F

lemma isPrintable_of_isAsciiShown (h : isAsciiShown c = true) : isPrintable c = true := by
  have hranges : ∀ r ∈ hiddenRanges, r.2 < 0x20 ∨ 0x7F ≤ r.1 := by decide +kernel
  rw [isAsciiShown, Bool.and_eq_true, decide_eq_true_eq, decide_eq_true_eq] at h
  refine isPrintable_iff.mpr fun r hr => ?_
  have := hranges r hr
  omega

lemma isShown_of_all (h : s.all isAsciiShown = true) : IsShown s := fun c hc =>
  isPrintable_of_isAsciiShown (List.all_eq_true.mp h c hc)

lemma isShown_hex (w n : Nat) : IsShown (hex w n) := by
  refine isShown_of_all (List.all_eq_true.mpr fun c hc => ?_)
  obtain ⟨d, hd, rfl⟩ := exists_digit_of_mem_hex hc
  have hall : ∀ d < 16, isAsciiShown (Nat.digitChar d) = true := by decide
  exact hall d hd

/-! ### How a character is written -/

def IsQuoteMark (c : Char) : Prop := c = singleMark ∨ c = doubleMark

lemma isQuoteMark_markFor (s : Text) : IsQuoteMark (markFor s) := by
  unfold markFor
  split
  · exact .inr rfl
  · exact .inl rfl

/-- The letters that stand for one character behind a backslash. -/
def letters : List (Char × Char) := [('n', '\n'), ('r', '\r'), ('t', '\t')]

/-- The letters behind which a code stands, with its number of digits. -/
def widths : List (Char × Nat) := [('x', 2), ('u', 4), ('U', 8)]

/-- How a character is written between two of `mark`: escaped, with a letter, as it is, or by its
code. -/
inductive Spelling (mark c : Char) : Text → Prop where
  | marked : c = mark ∨ c = backslash → Spelling mark c [backslash, c]
  | letter {letter : Char} : (letter, c) ∈ letters → Spelling mark c [backslash, letter]
  | plain : c ≠ mark → c ≠ backslash → isPrintable c = true → Spelling mark c [c]
  | code (letter : Char) (width : Nat) :
      (letter, width) ∈ widths → c.toNat < 16 ^ width →
      Spelling mark c (backslash :: letter :: hex width c.toNat)

lemma spelling_codeEscape (mark c : Char) : Spelling mark c (codeEscape c) := by
  have hc := (toNat_lt c).1
  simp only [codeEscape]
  split_ifs with h2 h4
  · exact .code 'x' 2 (by decide) (by omega)
  · exact .code 'u' 4 (by decide) (by omega)
  · exact .code 'U' 8 (by decide) (by omega)

lemma spelling (mark c : Char) : Spelling mark c (escaped mark c) := by
  unfold escaped
  split_ifs with hm hn hr ht hp
  · exact .marked hm
  · subst hn
    exact .letter (by decide)
  · subst hr
    exact .letter (by decide)
  · subst ht
    exact .letter (by decide)
  · rw [not_or] at hm
    exact .plain hm.1 hm.2 hp
  · exact spelling_codeEscape mark c

variable {w : Text}

lemma Spelling.isShown (h : Spelling mark c w) (hm : IsQuoteMark mark) : IsShown w := by
  cases h with
  | marked hc =>
    refine isShown_of_all ?_
    rcases hm with rfl | rfl <;> rcases hc with rfl | rfl <;> rfl
  | letter hl =>
    have hall : ∀ l ∈ letters, [backslash, l.1].all isAsciiShown = true := by decide
    exact isShown_of_all (hall _ hl)
  | plain _ _ hc => exact List.forall_mem_singleton.mpr hc
  | code letter width hl _ =>
    have hall : ∀ l ∈ widths, [backslash, l.1].all isAsciiShown = true := by decide
    exact (isShown_of_all (hall _ hl)).append (isShown_hex _ _)

/-- What is quoted can be shown, whatever it was before. -/
lemma isShown_quoted (s : Text) : IsShown (quoted s) := by
  have hm := isQuoteMark_markFor s
  have hmark : IsShown [markFor s] := by
    refine isShown_of_all ?_
    rcases hm with h | h <;> rw [h] <;> rfl
  refine (hmark.append ?_).append hmark
  intro x hx
  obtain ⟨c, -, hx⟩ := List.mem_flatMap.mp hx
  exact (spelling (markFor s) c).isShown hm x hx

/-! ### Reading back -/

/-- A code of some digits, taken off the front of a text. -/
def readCode? (width : Nat) (s : Text) : Option (Char × Text) :=
  (hexValue? (s.take width)).map fun n => (Char.ofNat n, s.drop width)

/-- What a backslash makes of the text behind it. -/
def readEscape? : Text → Option (Char × Text)
  | [] => none
  | 'n' :: s => some ('\n', s)
  | 'r' :: s => some ('\r', s)
  | 't' :: s => some ('\t', s)
  | 'x' :: s => readCode? 2 s
  | 'u' :: s => readCode? 4 s
  | 'U' :: s => readCode? 8 s
  | c :: s => some (c, s)

/-- A character between two of `mark`, taken off the front of a text. None stands before a mark. -/
def readEscaped? (mark : Char) : Text → Option (Char × Text)
  | [] => none
  | c :: s => if c = mark then none else if c = backslash then readEscape? s else some (c, s)

lemma readCode?_hex {width : Nat} (h : c.toNat < 16 ^ width) (s : Text) :
    readCode? width (hex width c.toNat ++ s) = some (c, s) := by
  have hlength : (hex width c.toNat).length = width := length_hex width c.toNat
  rw [readCode?, List.take_left' hlength, List.drop_left' hlength, hexValue?_hex h,
    Option.map_some, Char.ofNat_toNat]

lemma readEscaped?_backslash (hm : IsQuoteMark mark) (s : Text) :
    readEscaped? mark (backslash :: s) = readEscape? s := by
  rcases hm with rfl | rfl <;> rfl

/-- A character is read back, whatever is written behind it. -/
lemma Spelling.read (h : Spelling mark c w) (hm : IsQuoteMark mark) (s : Text) :
    readEscaped? mark (w ++ s) = some (c, s) := by
  cases h with
  | marked hc =>
    rw [List.cons_append, readEscaped?_backslash hm]
    rcases hm with rfl | rfl <;> rcases hc with rfl | rfl <;> rfl
  | letter hl =>
    rw [List.cons_append, readEscaped?_backslash hm]
    simp only [letters, List.mem_cons, Prod.mk.injEq, List.not_mem_nil, or_false] at hl
    rcases hl with ⟨rfl, rfl⟩ | ⟨rfl, rfl⟩ | ⟨rfl, rfl⟩ <;> rfl
  | plain hc hb _ => rw [List.singleton_append, readEscaped?, if_neg hc, if_neg hb]
  | code letter width hl hw =>
    rw [List.cons_append, readEscaped?_backslash hm, List.cons_append]
    simp only [widths, List.mem_cons, Prod.mk.injEq, List.not_mem_nil, or_false] at hl
    rcases hl with ⟨rfl, rfl⟩ | ⟨rfl, rfl⟩ | ⟨rfl, rfl⟩ <;> exact readCode?_hex hw s

/-- The inside of a quoted text ends at its mark. -/
lemma escapes_append_inj (hm : IsQuoteMark mark) {s s' t t' : Text}
    (h : s.flatMap (escaped mark) ++ mark :: t = s'.flatMap (escaped mark) ++ mark :: t') :
    s = s' ∧ t = t' := by
  have hread : ∀ (c : Char) (s t : Text),
      readEscaped? mark ((c :: s).flatMap (escaped mark) ++ t) =
        some (c, s.flatMap (escaped mark) ++ t) := fun c s t => by
    rw [List.flatMap_cons, List.append_assoc]
    exact (spelling mark c).read hm _
  have hstop : ∀ t, readEscaped? mark (mark :: t) = none := fun t => if_pos rfl
  induction s generalizing s' with
  | nil =>
    cases s' with
    | nil => exact ⟨rfl, (List.cons.inj h).2⟩
    | cons c s' =>
      have hnone := congrArg (readEscaped? mark) h
      rw [hread, List.flatMap_nil, List.nil_append, hstop] at hnone
      cases hnone
  | cons c s ih =>
    have hsome := congrArg (readEscaped? mark) h
    rw [hread] at hsome
    cases s' with
    | nil =>
      rw [List.flatMap_nil, List.nil_append, hstop] at hsome
      cases hsome
    | cons d s' =>
      rw [hread] at hsome
      obtain ⟨rfl, hrest⟩ := Prod.mk.inj (Option.some.inj hsome)
      obtain ⟨rfl, ht⟩ := ih hrest
      exact ⟨rfl, ht⟩

/-- A quoted text is told from what is written behind it, and the text from the quoted one. -/
theorem quoted_append_inj {s s' t t' : Text} (h : quoted s ++ t = quoted s' ++ t') :
    s = s' ∧ t = t' := by
  simp only [quoted, List.cons_append, List.append_assoc] at h
  obtain ⟨hmark, h⟩ := List.cons.inj h
  rw [← hmark] at h
  exact escapes_append_inj (isQuoteMark_markFor s) h

end StyleNest.Text
