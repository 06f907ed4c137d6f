import CodeGraft.Text.Blank

/-!
# Digits and integers

Each script's ten decimal digits follow one another from its zero, so a digit is known by the zero it
counts from. An integer is written with digits of any script, behind a sign if one is wanted. Single
low lines may stand between digits, and blanks around the whole, but no information separators.
-/

namespace CodeGraft.Text

/-- The code points of the zeros, in ascending order. -/
def digitZeros : List Nat :=
  [0x30, 0x660, 0x6F0, 0x7C0, 0x966, 0x9E6, 0xA66, 0xAE6, 0xB66, 0xBE6, 0xC66, 0xCE6, 0xD66,
   0xDE6, 0xE50, 0xED0, 0xF20, 0x1040, 0x1090, 0x17E0, 0x1810, 0x1946, 0x19D0, 0x1A80, 0x1A90,
   0x1B50, 0x1BB0, 0x1C40, 0x1C50, 0xA620, 0xA8D0, 0xA900, 0xA9D0, 0xA9F0, 0xAA50, 0xABF0, 0xFF10,
   0x104A0, 0x10D30, 0x11066, 0x110F0, 0x11136, 0x111D0, 0x112F0, 0x11450, 0x114D0, 0x11650,
   0x116C0, 0x11730, 0x118E0, 0x11950, 0x11C50, 0x11D50, 0x11DA0, 0x16A60, 0x16AC0, 0x16B50,
   0x1D7CE, 0x1D7D8, 0x1D7E2, 0x1D7EC, 0x1D7F6, 0x1E140, 0x1E2F0, 0x1E950, 0x1FBF0]

def digitValue? (c : Char) : Option Nat :=
  (digitZeros.find? fun z => z ≤ c.toNat && c.toNat < z + 10).map (c.toNat - ·)

/-- Whether a character is a decimal digit of any script. -/
def isDigit (c : Char) : Bool := (digitValue? c).isSome

def maxIntegerDigits : Nat := 4300

/-- Reads digits on to the value of those in front; `afterDigit` says whether the last character was
a digit. -/
def readDigitsFrom : (value : Nat) → (afterDigit : Bool) → Text → Option Nat
  | value, afterDigit, [] => if afterDigit then some value else none
  | value, afterDigit, c :: rest =>
    if c = '_' then
      if afterDigit then readDigitsFrom value false rest else none
    else
      match digitValue? c with
      | none => none
      | some d => readDigitsFrom (10 * value + d) true rest

def readDigits? (text : Text) : Option Nat :=
  if maxIntegerDigits < (text.filter (· ≠ '_')).length then none else readDigitsFrom 0 false text

/-- Whether a character can stand around an integer: a blank that is no information separator. -/
def isOuterBlank (c : Char) : Bool := isBlank c && !(0x1C ≤ c.toNat && c.toNat ≤ 0x1F)

/-- The text without what can stand around an integer. -/
def trimOuter (text : Text) : Text :=
  ((text.dropWhile isOuterBlank).reverse.dropWhile isOuterBlank).reverse

def readInteger? (text : Text) : Option Int :=
  match trimOuter text with
  | '-' :: digits => (readDigits? digits).map fun n => -(n : Int)
  | '+' :: digits => (readDigits? digits).map fun n => (n : Int)
  | digits => (readDigits? digits).map fun n => (n : Int)

end CodeGraft.Text
