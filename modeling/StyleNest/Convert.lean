import StyleNest.Scss.Lines
import StyleNest.Sheet.Scan

/-!
A flat sheet to nested blocks in one step, and the settings that such a conversion takes.
-/

namespace StyleNest

/-- Checked settings: one character, and a size that is not negative. -/
structure Settings where
  indentChar : Char
  indentSize : Option Nat
  deriving DecidableEq, Repr

inductive SettingsError where
  | notOneCharacter
  | negativeSize
  deriving DecidableEq, Repr

def SettingsError.message : SettingsError → Text
  | .notOneCharacter => "indent_char must be a single character".toList
  | .negativeSize => "indent_size must not be negative".toList

namespace Settings

def default : Settings := ⟨' ', none⟩

/-- The unit is looked at before the size. -/
def ofIndent : Scss.Indent → Except SettingsError Settings
  | ⟨[c], none⟩ => .ok ⟨c, none⟩
  | ⟨[c], some (.ofNat n)⟩ => .ok ⟨c, some n⟩
  | ⟨[_], some (.negSucc _)⟩ => .error .negativeSize
  | _ => .error .notOneCharacter

def indent (s : Settings) : Scss.Indent := ⟨[s.indentChar], s.indentSize.map Int.ofNat⟩

/-- The size that is in force: the character's own one if none is given. -/
def resolvedSize (s : Settings) : Nat := s.indentSize.getD (Scss.Indent.defaultSize [s.indentChar])

end Settings

/-- Converts rules that have been read. The size is settled before anything is written. -/
def convertRules (s : Settings) (rules : List Sheet.Rule) : Text :=
  Scss.print ⟨[s.indentChar], some (Int.ofNat s.resolvedSize)⟩ (Tree.ofRules rules)

/-- Writing settles a size that is not given in the same way. -/
theorem convertRules_eq_print (s : Settings) (rules : List Sheet.Rule) :
    convertRules s rules = Scss.print s.indent (Tree.ofRules rules) := by
  obtain ⟨c, _ | n⟩ := s <;> rfl

def convert (s : Settings) (source : Text) : Except Sheet.Error Text :=
  (Sheet.parse source).map (convertRules s)

theorem convert_of_parse_error (s : Settings) {source : Text} {e : Sheet.Error}
    (h : Sheet.parse source = .error e) : convert s source = .error e := by
  rw [convert, h]
  rfl

/-- The results of converting, then converting the result, and so on, up to the first failure. -/
def reconvert (s : Settings) : (times : Nat) → (source : Text) → List (Except Sheet.Error Text)
  | 0, _ => []
  | n + 1, source =>
    match convert s source with
    | .ok result => .ok result :: reconvert s n result
    | .error e => [.error e]

end StyleNest
