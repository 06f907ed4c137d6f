import CodeGraft.Fault
import CodeGraft.Ignore.Glob
import CodeGraft.Text.Blank

/-!
# Ignore rules

One way to read ignore files. Each line is a rule: a glob whose paths are ignored or, behind an
exclamation mark, are not ignored after all. Of the rules that fit a path the last one counts.
-/

namespace CodeGraft

open Text

structure IgnoreRule where
  glob : Glob
  /-- Whether the paths that fit are not ignored after all. -/
  readmits : Bool := false

namespace IgnoreRule

/-- A line without the blanks at its end, unless the last of them is escaped. -/
def cleanLine (line : Text) : Text :=
  if endsWith line "\\ " then line else trimEnd line

def ofLine? (line : Text) : Except GlobFault (Option IgnoreRule) :=
  let line := cleanLine line
  if line = [] ∨ line.head? = some '#' ∨ line = ['/'] then .ok none
  else
    let readmits : Bool := line.head? = some '!'
    match Glob.ofText (if readmits then line.tail else line) with
    | .ok glob => .ok (some { glob, readmits })
    | .error .unclosed => .ok none
    | .error .malformed => .error .malformed

end IgnoreRule

def ignoreRules? (lines : List Text) : Option (List IgnoreRule) :=
  match lines.mapM IgnoreRule.ofLine? with
  | .ok rules => some (rules.filterMap id)
  | .error _ => none

/-- A path without a slash, or a dot and a slash, in front. -/
def barePath : Text → Text
  | '/' :: path => path
  | '.' :: '/' :: path => path
  | path => path

def isIgnored (rules : List IgnoreRule) (path : Text) : Bool :=
  (rules.reverse.find? (·.glob.fits (barePath path))).any (!·.readmits)

def globTest (lines : List Text) : Except Fault (Text → Bool) :=
  match ignoreRules? lines with
  | some rules => .ok (isIgnored rules)
  | none => .error (.reported .badValue "Invalid git pattern")

end CodeGraft
