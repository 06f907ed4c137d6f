import CodeGraft.Text.Blank

/-!
# Fences

A fence (`FenceToken`) is a run of at least three equal backticks or tildes that cannot be made
longer (`_tokenize_fences`). It may stand anywhere in a line; what follows it on the line is its
info.
-/

namespace CodeGraft

open Text

def isFenceChar (c : Char) : Bool := c = '`' || c = '~'

structure Fence where
  /-- The offset of the first character. -/
  start : Nat
  char : Char
  length : Nat
  /-- The trimmed rest of the line. -/
  info : Text
  /-- The offset of the first character of the line. -/
  lineStart : Nat
  /-- The offset of the line feed that ends the line, or of the end of the text. -/
  lineEnd : Nat
  /-- Whether only blanks stand before the run on its line. -/
  atLineStart : Bool
  deriving DecidableEq

namespace Fence

def stop (f : Fence) : Nat := f.start + f.length

def charOf? : Text → Option Char
  | c :: run => if isFenceChar c && 2 ≤ run.length then some c else none
  | [] => none

/-- The fences of a line, whose runs of equal characters are given from the place behind `left`. -/
def ofRuns (lineStart lineEnd : Nat) : (left : Text) → (runs : List Text) → List Fence
  | _, [] => []
  | left, run :: runs =>
    let rest := ofRuns lineStart lineEnd (left ++ run) runs
    match charOf? run with
    | none => rest
    | some c =>
      { start := lineStart + left.length, char := c, length := run.length,
        info := trim runs.flatten, lineStart, lineEnd, atLineStart := isBlankText left } :: rest

def ofLine (lineStart : Nat) (line : Text) : List Fence :=
  ofRuns lineStart (lineStart + line.length) [] (line.splitBy (· == ·))

def ofLines : (lineStart : Nat) → List Text → List Fence
  | _, [] => []
  | lineStart, line :: ls => ofLine lineStart line ++ ofLines (lineStart + line.length + 1) ls

def all (text : Text) : List Fence := ofLines 0 (lines text)

def closes (f : Fence) (opener : Char × Nat) : Bool :=
  f.info.isEmpty && f.char = opener.1 && opener.2 ≤ f.length

def opensNested (f : Fence) : Bool := f.atLineStart && !f.info.isEmpty

end Fence

end CodeGraft
