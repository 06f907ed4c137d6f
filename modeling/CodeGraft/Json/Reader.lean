import CodeGraft.Json.Value
import CodeGraft.Text.Integer

/-!
# Reading JSON

Reading goes by recursive descent. Every step takes at least one character off the text, so the
length of the text bounds the number of steps. How deep lists and objects may be nested has a limit
of its own. Controls are refused inside of quotes, and so is anything but blanks behind the value.
-/

namespace CodeGraft.Json

def skipBlanks (t : Text) : Text := t.dropWhile fun c => c = ' ' || c = '\t' || c = '\n' || c = '\r'

def hexValue? (c : Char) : Option Nat :=
  if c.isDigit then some (c.toNat - '0'.toNat)
  else if 'a' ≤ c ∧ c ≤ 'f' then some (c.toNat - 'a'.toNat + 10)
  else if 'A' ≤ c ∧ c ≤ 'F' then some (c.toNat - 'A'.toNat + 10)
  else none

def readUnit : Text → Option (Nat × Text)
  | a :: b :: c :: d :: rest => do
    let high := (← hexValue? a) * 16 + (← hexValue? b)
    let unit := high * 256 + (← hexValue? c) * 16 + (← hexValue? d)
    some (unit, rest)
  | _ => none

/-- Reads the second half of a character whose first half is `high`, if it follows. -/
def readLowHalf (high : Nat) : Text → Option (Char × Text)
  | '\\' :: 'u' :: rest => do
    let (low, rest) ← readUnit rest
    if 0xDC00 ≤ low ∧ low < 0xE000 then
      some (Char.ofNat (0x10000 + (high - 0xD800) * 0x400 + (low - 0xDC00)), rest)
    else none
  | _ => none

/-- Reads what follows a backslash. Half a character that stands alone becomes a replacement
character. -/
def readEscape : Text → Option (Char × Text)
  | '"' :: rest => some ('"', rest)
  | '\\' :: rest => some ('\\', rest)
  | '/' :: rest => some ('/', rest)
  | 'b' :: rest => some ('\x08', rest)
  | 'f' :: rest => some ('\x0c', rest)
  | 'n' :: rest => some ('\n', rest)
  | 'r' :: rest => some ('\r', rest)
  | 't' :: rest => some ('\t', rest)
  | 'u' :: rest => do
    let (unit, rest) ← readUnit rest
    if 0xD800 ≤ unit ∧ unit < 0xDC00 then
      some ((readLowHalf unit rest).getD ('\uFFFD', rest))
    else if 0xDC00 ≤ unit ∧ unit < 0xE000 then some ('\uFFFD', rest)
    else some (Char.ofNat unit, rest)
  | _ => none

/-- Reads a text up to the closing quote; `bound` limits its length. -/
def readText : (bound : Nat) → Text → Option (Text × Text)
  | 0, _ => none
  | _ + 1, [] => none
  | bound + 1, c :: rest =>
    if c = '"' then some ([], rest)
    else if c = '\\' then do
      let (x, rest) ← readEscape rest
      let (t, rest) ← readText bound rest
      some (x :: t, rest)
    else if c.toNat < 0x20 then none
    else do
      let (t, rest) ← readText bound rest
      some (c :: t, rest)

def digitsValue (digits : Text) : Nat :=
  digits.foldl (fun n c => n * 10 + (c.toNat - '0'.toNat)) 0

def spanDigits (t : Text) : Text × Text := (t.takeWhile Char.isDigit, t.dropWhile Char.isDigit)

/-- Splits off a point with digits behind it; gives the digits, and all of the text if there are
none. -/
def spanFraction : Text → Text × Text
  | '.' :: rest =>
    match spanDigits rest with
    | ([], _) => ([], '.' :: rest)
    | (digits, rest) => (digits, rest)
  | t => ([], t)

def spanPower (t : Text) : Option Int × Text :=
  match t with
  | c :: rest =>
    if c = 'e' ∨ c = 'E' then
      let (negative, behind) : Bool × Text := match rest with
        | '-' :: r => (true, r)
        | '+' :: r => (false, r)
        | r => (false, r)
      match spanDigits behind with
      | ([], _) => (none, t)
      | (digits, rest) =>
        let n : Int := digitsValue digits
        (some (if negative then -n else n), rest)
    else (none, t)
  | [] => (none, t)

def readUnsigned (negative : Bool) (t : Text) : Option (Number × Text) :=
  let (whole, rest) := match t with
    | '0' :: rest => (['0'], rest)
    | _ => spanDigits t
  if whole.isEmpty then none
  else
    let (fraction, rest) := spanFraction rest
    let (power, rest) := spanPower rest
    if fraction.isEmpty ∧ power = none then
      let n : Int := digitsValue whole
      if Text.maxIntegerDigits < whole.length then none
      else some (.integer (if negative then -n else n), rest)
    else
      some (.ofDecimal negative (digitsValue (whole ++ fraction))
        (power.getD 0 - fraction.length), rest)

def readNumber : Text → Option (Number × Text)
  | '-' :: rest => readUnsigned true rest
  | t => readUnsigned false t

/-! ### Values -/

def readWord (t : Text) : Option (Value × Text) :=
  let words : List (Text × Value) := [
    ("null", .null), ("true", .bool true), ("false", .bool false), ("NaN", .number .undefined),
    ("Infinity", .number (.infinite false)), ("-Infinity", .number (.infinite true))]
  match words.findSome? fun (word, value) => (Text.after? word t).map (value, ·) with
  | some found => some found
  | none => (readNumber t).map fun (n, rest) => (.number n, rest)

inductive ReadFault where
  /-- What is read is not written for a value. -/
  | malformed
  /-- A list or an object, as the kind says, is nested too deep. -/
  | tooDeep (kind : String)
  deriving DecidableEq, Repr

def orMalformed {α : Type} : Option α → Except ReadFault α
  | some a => .ok a
  | none => .error .malformed

mutual

def readValue : (bound depth : Nat) → Text → Except ReadFault (Value × Text)
  | 0, _, _ => .error .malformed
  | bound + 1, depth, t =>
    match t, depth with
    | '"' :: rest, _ => do
      let (s, rest) ← orMalformed (readText (rest.length + 1) rest)
      return (.text s, rest)
    | '[' :: _, 0 => .error (.tooDeep "array")
    | '[' :: rest, depth + 1 =>
      match skipBlanks rest with
      | ']' :: rest => .ok (.list [], rest)
      | rest => (readItems bound depth rest).map fun (items, rest) => (.list items, rest)
    | '{' :: _, 0 => .error (.tooDeep "object")
    | '{' :: rest, depth + 1 =>
      match skipBlanks rest with
      | '}' :: rest => .ok (.object [], rest)
      | rest => (readFields bound depth rest).map fun (fields, rest) => (.ofFields fields, rest)
    | t, _ => orMalformed (readWord t)

def readItems : (bound depth : Nat) → Text → Except ReadFault (List Value × Text)
  | 0, _, _ => .error .malformed
  | bound + 1, depth, t => do
    let (item, rest) ← readValue bound depth t
    match skipBlanks rest with
    | ']' :: rest => return ([item], rest)
    | ',' :: rest =>
      let (items, rest) ← readItems bound depth (skipBlanks rest)
      return (item :: items, rest)
    | _ => .error .malformed

def readFields : (bound depth : Nat) → Text → Except ReadFault (List (Text × Value) × Text)
  | 0, _, _ => .error .malformed
  | bound + 1, depth, t =>
    match t with
    | '"' :: rest => do
      let (key, rest) ← orMalformed (readText (rest.length + 1) rest)
      match skipBlanks rest with
      | ':' :: rest =>
        let (value, rest) ← readValue bound depth (skipBlanks rest)
        match skipBlanks rest with
        | '}' :: rest => return ([(key, value)], rest)
        | ',' :: rest =>
          let (fields, rest) ← readFields bound depth (skipBlanks rest)
          return ((key, value) :: fields, rest)
        | _ => .error .malformed
      | _ => .error .malformed
    | _ => .error .malformed

end

/-- The value that a whole text is written for, with at most `depth` levels of lists and objects. -/
def Value.parse (depth : Nat) (t : Text) : Except ReadFault Value := do
  let (value, rest) ← readValue (2 * t.length + 2) depth (skipBlanks t)
  if (skipBlanks rest).isEmpty then return value else .error .malformed

end CodeGraft.Json
