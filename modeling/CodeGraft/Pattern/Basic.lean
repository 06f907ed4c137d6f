import CodeGraft.Text.Blank
import CodeGraft.Text.Word

/-!
# Patterns

A pattern describes a stretch of text, and may look at the one character before a place and at all
that follows it. Several stretches can fit at one place; the order of preference is part of the
pattern: the first of two alternatives, and more turns of `many` or fewer turns of `few`.
`Pattern.search?` finds the leftmost place where a pattern fits.
-/

namespace CodeGraft

open Text

/-- What a captured stretch is the text of. -/
inductive Label where
  | name
  | keyword
  | head
  | indent
  deriving DecidableEq, Repr

/-- A stretch that a pattern keeps, with the offset it starts at. -/
structure Capture where
  label : Label
  start : Nat
  text : Text

/-- A place in a text: its offset, the character before it, and the text that follows. -/
structure Cursor where
  offset : Nat
  before : Option Char
  rest : Text
  captures : List Capture := []

namespace Cursor

def start (text : Text) : Cursor := { offset := 0, before := none, rest := text }

def next (c : Cursor) : Cursor :=
  match c.rest with
  | [] => c
  | x :: rest => { c with offset := c.offset + 1, before := some x, rest := rest }

def skip : Nat → Cursor → Cursor
  | 0, c => c
  | n + 1, c => skip n c.next

def fresh (c : Cursor) : Cursor := { c with captures := [] }

def capture (c first : Cursor) (label : Label) : Cursor :=
  { c with captures :=
      ⟨label, first.offset, first.rest.take (c.offset - first.offset)⟩ :: c.captures }

def captured? (c : Cursor) (label : Label) : Option Capture :=
  c.captures.find? (·.label = label)

def capturedText (c : Cursor) (label : Label) : Text :=
  ((c.captured? label).map (·.text)).getD []

end Cursor

inductive Pattern where
  /-- The empty stretch. -/
  | nothing
  /-- One character of a class. -/
  | one (accepts : Char → Bool)
  /-- The empty stretch at a place whose character before and text behind satisfy a test. -/
  | check (holds : Option Char → Text → Bool)
  /-- A stretch of the first pattern and one of the second behind it. -/
  | seq (first second : Pattern)
  /-- A stretch of the first pattern or else one of the second. -/
  | alt (first second : Pattern)
  /-- Any number of stretches one behind another, as many as possible. -/
  | many (each : Pattern)
  /-- Any number of stretches one behind another, as few as possible. -/
  | few (each : Pattern)
  /-- A stretch that is kept under a label. -/
  | capture (label : Label) (inner : Pattern)

namespace Pattern

/-- How a pattern is tried at a place: the places behind its stretches are handed to the
continuation one by one, in order of preference, until one is accepted. -/
abbrev Attempt := Cursor → (Cursor → Option Cursor) → Option Cursor

/-- Repeats an attempt, preferring more turns. A turn must move on, so the text left at the start
bounds their number. -/
def repeatMost (each : Attempt) : Text → Attempt
  | [], c, k => k c
  | _ :: bound, c, k =>
    match each c fun c' => if c.offset < c'.offset then repeatMost each bound c' k else none with
    | some found => some found
    | none => k c

def repeatLeast (each : Attempt) : Text → Attempt
  | [], c, k => k c
  | _ :: bound, c, k =>
    match k c with
    | some found => some found
    | none =>
      each c fun c' => if c.offset < c'.offset then repeatLeast each bound c' k else none

def attempt : Pattern → Attempt
  | .nothing, c, k => k c
  | .one accepts, c, k =>
    match c.rest with
    | [] => none
    | x :: _ => if accepts x then k c.next else none
  | .check holds, c, k => if holds c.before c.rest then k c else none
  | .seq first second, c, k => first.attempt c fun c' => second.attempt c' k
  | .alt first second, c, k =>
    match first.attempt c k with
    | some found => some found
    | none => second.attempt c k
  | .many each, c, k => repeatMost each.attempt c.rest c k
  | .few each, c, k => repeatLeast each.attempt c.rest c k
  | .capture label inner, c, k => inner.attempt c fun c' => k (c'.capture c label)

/-- The place behind the preferred stretch of a pattern that starts at a place. -/
def fitAt? (p : Pattern) (c : Cursor) : Option Cursor := p.attempt c.fresh some

def fits (p : Pattern) (text : Text) : Bool := (p.fitAt? (Cursor.start text)).isSome

/-- A stretch that a pattern was found to fit: the places at its two ends. -/
structure Found where
  start : Cursor
  stop : Cursor

def searchFrom (p : Pattern) : (offset : Nat) → (before : Option Char) → Text → Option Found
  | offset, before, [] =>
    let c : Cursor := { offset, before, rest := [] }
    (p.attempt c some).map (Found.mk c)
  | offset, before, x :: rest =>
    let c : Cursor := { offset, before, rest := x :: rest }
    match p.attempt c some with
    | some stop => some ⟨c, stop⟩
    | none => searchFrom p (offset + 1) (some x) rest

def search? (p : Pattern) (c : Cursor) : Option Found := searchFrom p c.offset c.before c.rest

def occursIn (p : Pattern) (text : Text) : Bool := (p.search? (Cursor.start text)).isSome

def cat (ps : List Pattern) : Pattern := ps.foldr seq nothing

def anyOf : List Pattern → Pattern
  | [] => check fun _ _ => false
  | [p] => p
  | p :: ps => alt p (anyOf ps)

def literal (text : Text) : Pattern := cat (text.map fun c => one (· == c))

instance : Coe String Pattern := ⟨fun s => literal s.toList⟩

def anyWord (ws : List String) : Pattern := anyOf (ws.map fun w => literal w.toList)

def optional (p : Pattern) : Pattern := alt p nothing

def oneOrMore (p : Pattern) : Pattern := seq p (many p)

def oneOrMoreFew (p : Pattern) : Pattern := seq p (few p)

def charIn (chars : String) : Pattern := one (chars.toList.contains ·)

def charNotIn (chars : String) : Pattern := one fun c => !chars.toList.contains c

def blanks : Pattern := many (one isBlank)

def someBlanks : Pattern := oneOrMore (one isBlank)

def indentation : Pattern := many (charIn " \t")

def wordEdge : Pattern := check fun before rest => isWordEdge before rest.head?

def lineStart : Pattern := check fun before _ => before.all (· == '\n')

def notAfter (accepts : Char → Bool) : Pattern := check fun before _ => !before.any accepts

def notBefore (accepts : Char → Bool) : Pattern := check fun _ rest => !rest.head?.any accepts

end Pattern

end CodeGraft
