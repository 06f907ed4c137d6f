import CodeGraft.Callable.Shape
import CodeGraft.Edit.Basic

/-!
# Replacing the section around a declaration

A section (`_section_operation`) is a stretch of lines around a line that mentions a declaration
(`_declaration_patterns`). Upwards it reaches to a blank line, a line that opens a block or a lone
closing brace, downwards to a blank line or a lone closing brace. A lone closing brace below it
belongs to it when it closes a block that the section has left open.
-/

namespace CodeGraft

open Text Pattern

def declaration : Pattern := cat [
  wordEdge,
  .capture .keyword
    (anyWord ["function", "class", "def", "func", "fn", "interface", "struct", "enum", "trait"]),
  someBlanks,
  .capture .name identifier]

def declarationsFrom : (bound : Nat) → Cursor → List (Text × Text)
  | 0, _ => []
  | bound + 1, c =>
    match declaration.search? c with
    | none => []
    | some found =>
      (found.stop.capturedText .keyword, found.stop.capturedText .name) ::
        declarationsFrom bound found.stop

def declarations (code : Text) : List (Text × Text) :=
  let code := trim code
  declarationsFrom (code.length + 1) (Cursor.start code)

def mention (d : Text × Text) : Pattern := cat [
  wordEdge, literal d.1, someBlanks, literal d.2, notBefore isNameChar]

def mentionsAny (ds : List (Text × Text)) (line : Text) : Bool :=
  ds.any fun d => (mention d).occursIn line

def opensBlock (line : Text) : Bool := (trimEnd line).getLast? = some '{'

/-- Whether a line holds a closing brace, possibly a semicolon behind it, and nothing else. -/
def isLoneCloser (line : Text) : Bool :=
  match trim line with
  | '}' :: rest => let rest := trimStart rest; rest.isEmpty || rest = [';']
  | _ => false

def startsSection (line : Text) : Bool := isBlankText line || opensBlock line || isLoneCloser line

def endsSection (line : Text) : Bool := isBlankText line || isLoneCloser line

/-- How many more braces the lines open than they close. -/
def braceDepth (ls : List Text) : Int :=
  (ls.flatten.count '{' : Int) - ls.flatten.count '}'

/-- The lines of a text, split into those above a section, its own and those below. -/
structure Sectioned where
  above : List Text
  body : List Text
  below : List Text
  /-- How many lines of the section stand above the line that it was found by. -/
  lead : Nat

def sectionAround? (ds : List (Text × Text)) (ls : List Text) : Option Sectioned :=
  match ls.dropWhile (!mentionsAny ds ·) with
  | [] => none
  | hit :: below =>
    let above := (ls.takeWhile (!mentionsAny ds ·)).reverse
    let up := (above.takeWhile (!startsSection ·)).reverse
    let down := below.takeWhile (!endsSection ·)
    let body := up ++ hit :: down
    let above := (above.drop up.length).reverse
    match below.drop down.length with
    | closer :: rest =>
      if 0 < braceDepth body ∧ isLoneCloser closer = true then
        some ⟨above, body ++ [closer], rest, up.length⟩
      else some ⟨above, body, closer :: rest, up.length⟩
    | [] => some ⟨above, body, [], up.length⟩

namespace Sectioned

def start (s : Sectioned) : Nat := linesLength s.above

def withoutReturns (line : Text) : Text := (line.reverse.dropWhile (· = '\r')).reverse

/-- The offset behind the last character; carriage returns at the end of the last line do not belong
to the section. -/
def stop (s : Sectioned) : Nat :=
  s.start + linesLength s.body.dropLast +
    (withoutReturns (s.body.getLast?.getD [])).length

def hitLine (s : Sectioned) : Nat := s.above.length + s.lead + 1

def firstLine (s : Sectioned) : Nat := s.above.length + 1

def lastLine (s : Sectioned) : Nat := s.above.length + s.body.length

end Sectioned

def sectionFor? (existing newCode : Text) : Option Sectioned :=
  sectionAround? (declarations newCode) (lines existing)

end CodeGraft
