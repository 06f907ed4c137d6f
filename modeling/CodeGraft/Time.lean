import CodeGraft.Text.Basic

/-!
# Instants

An instant is a date and a time of day in universal time, with microseconds. It is written in two
ways: in the extended form with an offset, for the history, and with dashes only, for file names.
-/

namespace CodeGraft

/-- A date and a time of day in universal time. -/
structure Instant where
  year : Nat
  month : Nat
  day : Nat
  hour : Nat
  minute : Nat
  second : Nat
  micro : Nat
  deriving DecidableEq, Repr

namespace Instant

def padded (width n : Nat) : Text :=
  let digits := Text.ofNat n
  List.replicate (width - digits.length) '0' ++ digits

/-- The extended form; the fraction is left out when it is zero. -/
def extended (t : Instant) : Text :=
  .glue [padded 4 t.year, "-", padded 2 t.month, "-", padded 2 t.day, "T", padded 2 t.hour, ":",
    padded 2 t.minute, ":", padded 2 t.second,
    if t.micro = 0 then [] else '.' :: padded 6 t.micro, "+00:00"]

/-- The instant some seconds and microseconds after the start of 1970. The days are counted in eras
of 400 years, and the years from March on, so that a leap day is the last of its year. -/
def ofSeconds (seconds micro : Nat) : Instant :=
  let days := seconds / 86400 + 719468
  let ofEra := days % 146097
  let yearOfEra := (ofEra - ofEra / 1460 + ofEra / 36524 - ofEra / 146096) / 365
  let ofYear := ofEra - (365 * yearOfEra + yearOfEra / 4 - yearOfEra / 100)
  let fromMarch := (5 * ofYear + 2) / 153
  let month := if fromMarch < 10 then fromMarch + 3 else fromMarch - 9
  let year := yearOfEra + days / 146097 * 400 + if month ≤ 2 then 1 else 0
  let ofDay := seconds % 86400
  { year, month, day := ofYear - (153 * fromMarch + 2) / 5 + 1, hour := ofDay / 3600,
    minute := ofDay % 3600 / 60, second := ofDay % 60, micro }

/-- The form in file names, in which the year has no zeros in front. -/
def stamp (t : Instant) : Text :=
  .glue [.ofNat t.year, "-", padded 2 t.month, "-", padded 2 t.day, "T", padded 2 t.hour, "-",
    padded 2 t.minute, "-", padded 2 t.second, "-", padded 6 t.micro, "Z"]

def key (t : Instant) : List Nat := [t.year, t.month, t.day, t.hour, t.minute, t.second, t.micro]

def le (a b : Instant) : Bool := !(b.key < a.key)

def readDigits : (count value : Nat) → Text → Option (Nat × Text)
  | 0, value, text => some (value, text)
  | _ + 1, _, [] => none
  | count + 1, value, c :: text =>
    if c.isDigit then readDigits count (value * 10 + (c.toNat - '0'.toNat)) text else none

def readField (sep : Char) (count : Nat) : Text → Option (Nat × Text)
  | c :: text => if c = sep then readDigits count 0 text else none
  | [] => none

/-- Reads the extended form without an offset; the fraction may be missing. -/
def ofExtended? (text : Text) : Option Instant := do
  let (year, text) ← readDigits 4 0 text
  let (month, text) ← readField '-' 2 text
  let (day, text) ← readField '-' 2 text
  let (hour, text) ← readField 'T' 2 text
  let (minute, text) ← readField ':' 2 text
  let (second, text) ← readField ':' 2 text
  let micro := ((readField '.' 6 text).map (·.1)).getD 0
  some { year, month, day, hour, minute, second, micro }

end Instant

end CodeGraft
