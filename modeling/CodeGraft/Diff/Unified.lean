import CodeGraft.Diff.Shared
import CodeGraft.Text.LineBreak

/-!
# Unified differences

The difference of two versions is a list of hunks: the changed lines with some unchanged ones around
them, each line marked as kept, removed or added. Changes that are close to one another share a
hunk.
-/

namespace CodeGraft.Diff

/-- A stretch of lines in both versions, either the same in both or different. -/
structure Stretch where
  same : Bool
  oldStart : Nat
  oldStop : Nat
  newStart : Nat
  newStop : Nat
  deriving DecidableEq, Repr

namespace Stretch

def last (n : Nat) (s : Stretch) : Stretch :=
  { s with oldStart := max s.oldStart (s.oldStop - n), newStart := max s.newStart (s.newStop - n) }

def first (n : Nat) (s : Stretch) : Stretch :=
  { s with oldStop := min s.oldStop (s.oldStart + n), newStop := min s.newStop (s.newStart + n) }

end Stretch

/-- The stretches from the given lines on, made by the shared ones and what lies between them. -/
def stretchesFrom (oldStart newStart oldLength newLength : Nat) : List Shared → List Stretch
  | [] =>
    if oldStart < oldLength ∨ newStart < newLength then
      [⟨false, oldStart, oldLength, newStart, newLength⟩]
    else []
  | s :: rest =>
    let same : Stretch :=
      ⟨true, s.oldStart, s.oldStart + s.size, s.newStart, s.newStart + s.size⟩
    let later := same :: stretchesFrom same.oldStop same.newStop oldLength newLength rest
    if oldStart < s.oldStart ∨ newStart < s.newStart then
      ⟨false, oldStart, s.oldStart, newStart, s.newStart⟩ :: later
    else later

def stretches (olds news : List Text) : List Stretch :=
  stretchesFrom 0 0 olds.length news.length (shared olds news)

/-- The stretches with no more than `n` unchanged lines in front of the first change. -/
def trimFirst (n : Nat) : List Stretch → List Stretch
  | s :: rest => (if s.same then s.last n else s) :: rest
  | [] => []

/-- The stretches with no more than `n` unchanged lines behind the last change. -/
def trimLast (n : Nat) : List Stretch → List Stretch
  | [] => []
  | [s] => [if s.same then s.first n else s]
  | s :: rest => s :: trimLast n rest

/-- Splits the stretches behind `group` where more than `2 * n` lines are unchanged. -/
def groupsFrom (n : Nat) (group : List Stretch) : List Stretch → List (List Stretch)
  | [] =>
    match group with
    | [] => []
    | [s] => if s.same then [] else [group]
    | _ => [group]
  | s :: rest =>
    if s.same ∧ 2 * n < s.oldStop - s.oldStart then
      (group ++ [s.first n]) :: groupsFrom n [s.last n] rest
    else groupsFrom n (group ++ [s]) rest

/-- The groups of changes with up to `n` unchanged lines around them. -/
def groups (n : Nat) (ss : List Stretch) : List (List Stretch) :=
  groupsFrom n [] (trimLast n (trimFirst n ss))

inductive Mark where
  | kept
  | removed
  | added
  deriving DecidableEq, Repr

def Mark.char : Mark → Char
  | .kept => ' '
  | .removed => '-'
  | .added => '+'

structure Hunk where
  oldStart : Nat
  oldStop : Nat
  newStart : Nat
  newStop : Nat
  lines : List (Mark × Text)
  deriving DecidableEq

def Stretch.marked (olds news : List Text) (s : Stretch) : List (Mark × Text) :=
  let old := (olds.take s.oldStop).drop s.oldStart
  if s.same then old.map (.kept, ·)
  else old.map (.removed, ·) ++ ((news.take s.newStop).drop s.newStart).map (.added, ·)

def Hunk.ofGroup (olds news : List Text) (group : List Stretch) : Hunk where
  oldStart := (group.head?.map (·.oldStart)).getD 0
  oldStop := (group.getLast?.map (·.oldStop)).getD 0
  newStart := (group.head?.map (·.newStart)).getD 0
  newStop := (group.getLast?.map (·.newStop)).getD 0
  lines := group.flatMap (·.marked olds news)

/-- The hunks of two versions with up to `n` unchanged lines around each change. -/
def hunks (n : Nat) (olds news : List Text) : List Hunk :=
  (groups n (stretches olds news)).map (Hunk.ofGroup olds news)

/-- The range of the lines from `start` up to but not including `stop`, counted from one: a single
line by its number, no line by the number of the line before. -/
def rangeText (start stop : Nat) : Text :=
  let length := stop - start
  if length = 1 then .ofNat (start + 1)
  else if length = 0 then .ofNat start ++ ",0".toList
  else .glue [.ofNat (start + 1), ",", .ofNat length]

/-- A line of the output; one that no line feed ends is followed by a remark. -/
def closed (line : Text) : Text :=
  if line.getLast? = some '\n' then line else line ++ "\n\\ No newline at end of file\n".toList

def Hunk.render (h : Hunk) : Text :=
  .glue ["@@ -", rangeText h.oldStart h.oldStop, " +", rangeText h.newStart h.newStop, " @@\n"] ++
    h.lines.flatMap fun (mark, line) => closed (mark.char :: line)

/-- The difference of two versions of the file at a path (`unified_diff`); it is empty when there is
no hunk. -/
def unified (n : Nat) (path old new : Text) : Text :=
  match hunks n (Text.brokenLines old) (Text.brokenLines new) with
  | [] => []
  | hs =>
    .glue ["--- a/", path, "\n+++ b/", path, "\n"] ++ hs.flatMap Hunk.render

/-- How many unchanged lines are shown around a change. -/
def defaultContext : Nat := 3

end CodeGraft.Diff
