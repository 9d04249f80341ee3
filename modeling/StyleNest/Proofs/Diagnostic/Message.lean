import StyleNest.Proofs.Text.Quoted
import StyleNest.Sheet.Scan

/-!
The messages of reports.

A message says what was found and then either the place or the text that was read. Each part ends
where the next one begins, whatever is quoted, so a message is that of one report only. It stands
on one line because a quoted text does.
-/

namespace StyleNest

namespace Text

lemma isShown_natural (n : Nat) : IsShown (natural n) := by
  refine isShown_of_all (List.all_eq_true.mpr fun c hc => ?_)
  have := toNat_of_isDigit (isDigit_of_mem_natural hc)
  rw [isAsciiShown, Bool.and_eq_true, decide_eq_true_eq, decide_eq_true_eq]
  omega

end Text

namespace Diagnostic

open Text

/-- The reports on texts that were read as a chain or as a sheet. -/
inductive Raised : Diagnostic → Prop where
  | chain {s : Text} {e : ChainError} : Selector.parse s = .error e → Raised e.diagnostic
  | sheet {s : Text} {e : Sheet.Error} : Sheet.parse s = .error e → Raised e.diagnostic

/-- A report has a place or the text that was read, and not both. -/
inductive Shaped : Diagnostic → Prop where
  | placed (found : Text) (line column : Nat) : Shaped ⟨found, some line, some column, none⟩
  | citing (found source : Text) : Shaped ⟨found, none, none, some source⟩

lemma Raised.shaped {d : Diagnostic} (h : Raised d) : d.Shaped := by
  cases h with
  | chain => exact .citing _ _
  | @sheet _ e =>
    cases e with
    | unexpected found place => exact .placed _ _ _
    | chain e => exact .citing _ _

/-! ### Parts of a message -/

/-- The end of a message that names a place. -/
def placeText (line column : Nat) : Text :=
  "at line ".toList ++ (natural line ++ ',' :: (" column ".toList ++ natural column))

/-- The end of a message that quotes what was read. -/
def sourceText (source : Text) : Text := "in ".toList ++ quoted source

variable {d d' : Diagnostic} {found : Text}

lemma message_placed (line column : Nat) (hd : d = ⟨found, some line, some column, none⟩) :
    d.message = d.what ++ ' ' :: placeText line column := by
  have hline : " at line ".toList = ' ' :: "at line ".toList := rfl
  have hcolumn : ", column ".toList = ',' :: " column ".toList := rfl
  subst hd
  simp only [message, columnText, hline, hcolumn, List.append_assoc, List.cons_append]
  rfl

lemma message_citing {source : Text} (hd : d = ⟨found, none, none, some source⟩) :
    d.message = d.what ++ ' ' :: sourceText source := by
  have hin : " in ".toList = ' ' :: "in ".toList := rfl
  subst hd
  simp only [message, sourceText, hin, List.append_assoc, List.cons_append]

/-- What was found is told from what is said of it. -/
lemma what_append_inj {s t : Text} (h : d.what ++ ' ' :: s = d'.what ++ ' ' :: t) :
    d.found = d'.found ∧ s = t := by
  unfold what at h
  split_ifs at h with hd hd' hd'
  · rw [hd, hd']
    exact ⟨rfl, (List.cons.inj (List.append_cancel_left h)).2⟩
  · simp at h
  · simp at h
  · rw [List.append_assoc, List.append_assoc] at h
    obtain ⟨hfound, hrest⟩ := quoted_append_inj (List.append_cancel_left h)
    exact ⟨hfound, (List.cons.inj hrest).2⟩

lemma placeText_inj {line line' column column' : Nat}
    (h : placeText line column = placeText line' column') : line = line' ∧ column = column' := by
  obtain ⟨hline, h⟩ := natural_append_inj (List.append_cancel_left h)
  exact ⟨hline, natural_inj (List.append_cancel_left h)⟩

lemma sourceText_inj {source source' : Text} (h : sourceText source = sourceText source') :
    source = source' := by
  have hquoted : quoted source ++ [] = quoted source' ++ [] := by
    simpa using List.append_cancel_left h
  exact (quoted_append_inj hquoted).1

lemma placeText_ne_sourceText (line column : Nat) (source : Text) :
    placeText line column ≠ sourceText source := by
  intro h
  cases (List.cons.inj h).1

lemma isShown_what (d : Diagnostic) : IsShown d.what := by
  unfold what
  split
  · exact isShown_of_all rfl
  · exact (isShown_of_all rfl).append (isShown_quoted _)

lemma isShown_placeText (line column : Nat) : IsShown (placeText line column) := by
  have hcomma : IsShown [','] := isShown_of_all rfl
  have hline : IsShown "at line ".toList := isShown_of_all rfl
  have hcolumn : IsShown " column ".toList := isShown_of_all rfl
  exact hline.append ((isShown_natural line).append
    (hcomma.append (hcolumn.append (isShown_natural column))))

lemma isShown_sourceText (source : Text) : IsShown (sourceText source) :=
  (isShown_of_all rfl).append (isShown_quoted source)

lemma Shaped.isShown (h : d.Shaped) : IsShown d.message := by
  have hspace : IsShown [' '] := isShown_of_all rfl
  have hwhat := isShown_what d
  cases h with
  | placed found line column =>
    rw [message_placed line column rfl]
    exact hwhat.append (hspace.append (isShown_placeText line column))
  | citing found source =>
    rw [message_citing rfl]
    exact hwhat.append (hspace.append (isShown_sourceText source))

lemma Shaped.message_inj (hd : d.Shaped) (hd' : d'.Shaped) (h : d.message = d'.message) :
    d = d' := by
  cases hd with
  | placed found line column =>
    rw [message_placed line column rfl] at h
    cases hd' with
    | placed found' line' column' =>
      rw [message_placed line' column' rfl] at h
      obtain ⟨hfound, hplace⟩ := what_append_inj h
      obtain ⟨rfl, rfl⟩ := placeText_inj hplace
      obtain rfl : found = found' := hfound
      rfl
    | citing found' source' =>
      rw [message_citing rfl] at h
      exact absurd (what_append_inj h).2 (placeText_ne_sourceText line column source')
  | citing found source =>
    rw [message_citing rfl] at h
    cases hd' with
    | placed found' line' column' =>
      rw [message_placed line' column' rfl] at h
      exact absurd (what_append_inj h).2.symm (placeText_ne_sourceText line' column' source)
    | citing found' source' =>
      rw [message_citing rfl] at h
      obtain ⟨hfound, hsource⟩ := what_append_inj h
      obtain rfl : found = found' := hfound
      rw [sourceText_inj hsource]

/-- **A report is told by its message, which is one line.** Whatever text is refused, the message
holds no control character, nor any other that cannot be shown, and no other report that reading a
chain or a sheet can end with has the same message. -/
theorem message_tells_report :
    (∀ d : Diagnostic, d.Raised → ∀ c ∈ d.message, isPrintable c = true ∧ ¬ IsControl c) ∧
    ∀ d d' : Diagnostic, d.Raised → d'.Raised → d.message = d'.message →
      d.found = d'.found ∧ d.line = d'.line ∧ d.column = d'.column ∧ d.source = d'.source := by
  constructor
  · intro d hd c hc
    have hshown : isPrintable c = true := hd.shaped.isShown c hc
    exact ⟨hshown, not_isControl_of_isPrintable hshown⟩
  · intro d d' hd hd' h
    obtain rfl := hd.shaped.message_inj hd'.shaped h
    exact ⟨rfl, rfl, rfl, rfl⟩

/-- A chain with a line feed that a mark leaves open is refused in the same words by itself and in a
sheet. A text that reads like the end of a message is refused in other words as a chain than as a
sheet. -/
theorem message_tells_report_of_open_mark :
    let chain := "[\x22' in '\n|".toList
    let text := "%' at line 1, column 1".toList
    (∃ e e', Selector.parse chain = .error e ∧
      Sheet.parse ("x\x7b\x7db,".toList ++ chain ++ ['{']) = .error e' ∧
      e.diagnostic.message = e'.diagnostic.message ∧ e.diagnostic.source = e'.diagnostic.source ∧
      ∀ c ∈ e.diagnostic.message, ¬ IsControl c) ∧
    ∃ e e', Selector.parse text = .error e ∧ Sheet.parse text = .error e' ∧
      e.diagnostic.message ≠ e'.diagnostic.message := by
  intro chain text
  obtain ⟨hshown, htells⟩ := message_tells_report
  constructor
  · have hchain : Selector.parse chain = .error ⟨none, chain⟩ := rfl
    have hsheet : Sheet.parse ("x\x7b\x7db,".toList ++ chain ++ ['{']) =
        .error (.chain ⟨none, chain⟩) := rfl
    obtain ⟨-, -, -, hsource⟩ := htells _ _ (.chain hchain) (.sheet hsheet) rfl
    exact ⟨_, _, hchain, hsheet, rfl, hsource, fun c hc => (hshown _ (.chain hchain) c hc).2⟩
  · have hchain : Selector.parse text = .error ⟨some '%', text⟩ := rfl
    have hsheet : Sheet.parse text = .error (.unexpected (some '%') ⟨1, 1⟩) := rfl
    refine ⟨_, _, hchain, hsheet, fun h => ?_⟩
    obtain ⟨-, -, -, hsource⟩ := htells _ _ (.chain hchain) (.sheet hsheet) h
    cases hsource

end Diagnostic
end StyleNest
