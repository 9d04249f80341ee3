import StyleNest.Text.Basic

/-!
Numbers in digits: written in decimal, written in hexadecimal at a fixed width, and read as a person
types them, with blanks around, a sign, digits of any script, and single underscores between digits.
-/

namespace StyleNest.Text

/-! ### Decimal digits -/

def natural (n : Nat) : Text := Nat.toDigits 10 n

def integer : Int → Text
  | .ofNat n => natural n
  | .negSucc n => '-' :: natural (n + 1)

/-! ### Hexadecimal digits -/

/-- The last `width` hexadecimal digits of a number. -/
def hex : (width : Nat) → Nat → Text
  | 0, _ => []
  | w + 1, n => hex w (n / 16) ++ [Nat.digitChar (n % 16)]

@[simp] theorem length_hex (w n : Nat) : (hex w n).length = w := by
  induction w generalizing n with
  | zero => rfl
  | succ w ih => simp [hex, ih]

def hexDigit? (c : Char) : Option Nat :=
  if '0' ≤ c ∧ c ≤ '9' then some (c.toNat - 48)
  else if 'a' ≤ c ∧ c ≤ 'f' then some (c.toNat - 87)
  else if 'A' ≤ c ∧ c ≤ 'F' then some (c.toNat - 55)
  else none

def hexValue? (s : Text) : Option Nat :=
  s.foldlM (fun n c => (hexDigit? c).map (16 * n + ·)) 0

/-! ### Digits of all scripts -/

/-- The zeros of the scripts that have decimal digits, as Unicode 14 lists them. Nine code points
with the other digits follow each. -/
def zeros : List Nat :=
  [0x30, 0x660, 0x6F0, 0x7C0, 0x966, 0x9E6, 0xA66, 0xAE6, 0xB66, 0xBE6, 0xC66, 0xCE6, 0xD66,
    0xDE6, 0xE50, 0xED0, 0xF20, 0x1040, 0x1090, 0x17E0, 0x1810, 0x1946, 0x19D0, 0x1A80, 0x1A90,
    0x1B50, 0x1BB0, 0x1C40, 0x1C50, 0xA620, 0xA8D0, 0xA900, 0xA9D0, 0xA9F0, 0xAA50, 0xABF0,
    0xFF10, 0x104A0, 0x10D30, 0x11066, 0x110F0, 0x11136, 0x111D0, 0x112F0, 0x11450, 0x114D0,
    0x11650, 0x116C0, 0x11730, 0x118E0, 0x11950, 0x11C50, 0x11D50, 0x11DA0, 0x16A60, 0x16AC0,
    0x16B50, 0x1D7CE, 0x1D7D8, 0x1D7E2, 0x1D7EC, 0x1D7F6, 0x1E140, 0x1E2F0, 0x1E950, 0x1FBF0]

/-- The value of a decimal digit of any script. -/
def digitValue? (c : Char) : Option Nat :=
  (zeros.find? fun z => z ≤ c.toNat && c.toNat < z + 10).map (c.toNat - ·)

/-! ### Numbers as they are typed -/

/-- Blanks around a number. The four separators below the space are no such blanks. -/
def isPadding (c : Char) : Bool :=
  isBlank c && !(0x1C ≤ c.toNat && c.toNat ≤ 0x1F)

/-- No more digits than this are read. -/
def maxDigits : Nat := 4300

/-- Digits with single underscores between them, read behind some that are worth `value`: the
worth of all, and how many they are. -/
def digitsFrom? (value : Nat) (digits : Nat) : Text → Option (Nat × Nat)
  | [] => some (value, digits)
  | '_' :: c :: s => do
    let d ← digitValue? c
    digitsFrom? (10 * value + d) (digits + 1) s
  | c :: s => do
    let d ← digitValue? c
    digitsFrom? (10 * value + d) (digits + 1) s

def readNatural? : Text → Option Nat
  | [] => none
  | c :: s => do
    let d ← digitValue? c
    let (value, digits) ← digitsFrom? d 1 s
    if digits ≤ maxDigits then some value else none

def readSigned? : Text → Option Int
  | '-' :: s => (readNatural? s).map fun n => -(n : Int)
  | '+' :: s => (readNatural? s).map Int.ofNat
  | s => (readNatural? s).map Int.ofNat

def readInteger? (s : Text) : Option Int :=
  readSigned? ((s.dropWhile isPadding).reverse.dropWhile isPadding).reverse

end StyleNest.Text
