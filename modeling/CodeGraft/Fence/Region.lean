import CodeGraft.Fence.Run

/-!
# Fenced regions

A fence at the start of a line opens a region. Inside, a fence at the start of a line with an info
opens a nested region, and a fence without an info closes the innermost region that its character
and length fit. Only regions that are not inside another one are reported (`iter_fenced_regions`); a
region that is never closed ends the search.
-/

namespace CodeGraft

open Text

structure Region where
  /-- The info of the opening fence. -/
  info : Text
  code : Text
  /-- The text between the region before and the line of the opening fence. -/
  preamble : Text
  /-- The offset of the first character of the code. -/
  start : Nat
  /-- The offset behind the last character of the code. -/
  stop : Nat
  deriving DecidableEq

namespace Region

/-- The fence that closes the outermost of the open regions, and the fences behind it. The innermost
open region is given by the character and length of its fence, then those around it. -/
def closer? : (inner : Char × Nat) → (outer : List (Char × Nat)) → List Fence →
    Option (Fence × List Fence)
  | _, _, [] => none
  | inner, outer, f :: fences =>
    if f.opensNested then closer? (f.char, f.length) (inner :: outer) fences
    else if f.closes inner then
      match outer with
      | [] => some (f, fences)
      | next :: outer => closer? next outer fences
    else closer? inner outer fences

theorem closer?_length_lt {inner : Char × Nat} {outer : List (Char × Nat)}
    {fences rest : List Fence} {f : Fence} (h : closer? inner outer fences = some (f, rest)) :
    rest.length < fences.length := by
  induction fences generalizing inner outer with
  | nil => simp [closer?] at h
  | cons g fences ih =>
    simp only [closer?] at h
    split at h
    · exact Nat.lt_succ_of_lt (ih h)
    · split at h
      · split at h
        · cases h
          exact Nat.lt_succ_self _
        · exact Nat.lt_succ_of_lt (ih h)
      · exact Nat.lt_succ_of_lt (ih h)

/-- The offset behind a region's code: the closing fence, or the line break in front of its line
(`_body_end`). -/
def codeStop (text : Text) (start : Nat) (closer : Fence) : Nat :=
  if !closer.atLineStart then max closer.start start
  else
    let stop := closer.lineStart
    if 0 < stop ∧ text[stop - 1]? = some '\n' then
      if 1 < stop ∧ text[stop - 2]? = some '\r' then max (stop - 2) start else max (stop - 1) start
    else max stop start

def between (text : Text) (floor : Nat) (opener closer : Fence) : Region :=
  let start := opener.lineEnd + 1
  let stop := codeStop text start closer
  { info := opener.info, code := slice text start stop,
    preamble := slice text floor opener.lineStart, start, stop }

/-- The regions that the fences make, when the region before them ends at `floor`. A fence on the
last line opens nothing, as no line follows it. -/
def ofFences (text : Text) (floor : Nat) : List Fence → List Region
  | [] => []
  | opener :: fences =>
    if !opener.atLineStart || text.length ≤ opener.lineEnd then ofFences text floor fences
    else
      match _h : closer? (opener.char, opener.length) [] fences with
      | none => []
      | some (closer, rest) =>
        between text floor opener closer :: ofFences text closer.lineEnd rest
termination_by fences => fences.length
decreasing_by
  · simp
  · exact Nat.lt_succ_of_lt (closer?_length_lt _h)

def all (text : Text) : List Region := ofFences text 0 (Fence.all text)

end Region

end CodeGraft
