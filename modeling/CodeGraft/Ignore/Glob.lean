import CodeGraft.Pattern.Basic

/-!
# Globs

A glob describes paths segment by segment. In a segment a star stands for any characters and a
question mark for one, a bracket lists characters, and a backslash takes away the meaning of the
character behind it. The segment of two stars stands for any number of folders. A glob that is not
written from the root fits at any depth, and one that fits a folder fits all that is in it.
-/

namespace CodeGraft

open Text

/-- Why a glob cannot be read. -/
inductive GlobFault where
  /-- A bracket is not closed: the glob stands for no path. -/
  | unclosed
  /-- The glob makes all that is written with it unreadable. -/
  | malformed
  deriving DecidableEq, Repr

inductive GlobPart where
  | char (c : Char)
  /-- One character. -/
  | any
  /-- Any number of characters. -/
  | run
  /-- A character in one of the ranges, or in none of them. -/
  | among (negated : Bool) (ranges : List (Char × Char))

inductive GlobSegment where
  | folders
  /-- Any name. -/
  | name
  | parts (parts : List GlobPart)

inductive Glob where
  /-- Every path with a character that is no line feed. -/
  | all
  /-- Every path with a slash. -/
  | nested
  | along (segments : List GlobSegment)

def bracketRanges : Text → List (Char × Char)
  | [] => []
  | c :: '-' :: d :: rest => (c, d) :: bracketRanges rest
  | c :: rest => (c, c) :: bracketRanges rest

/-- The inside of a bracket and the text behind it. A closing bracket that comes first belongs to
the inside. -/
def bracketInside? (text : Text) : Option (Text × Text) :=
  let lead := if text.head? = some ']' then [']'] else []
  let inside := (text.drop lead.length).takeWhile (· ≠ ']')
  match text.drop (lead.length + inside.length) with
  | _ :: rest => some (lead ++ inside, rest)
  | [] => none

theorem bracketInside?_length {text inside rest : Text}
    (h : bracketInside? text = some (inside, rest)) : rest.length < text.length := by
  simp only [bracketInside?] at h
  split at h
  · next c rest' hd =>
    obtain ⟨-, rfl⟩ := Prod.mk.inj (Option.some.inj h)
    have := congrArg List.length hd
    simp only [List.length_drop, List.length_cons] at this
    omega
  · simp at h

/-- What stands behind the sign that negates a bracket, if there is one. -/
def afterNegation : Text → Text
  | '!' :: rest => rest
  | '^' :: rest => rest
  | text => text

theorem afterNegation_length (text : Text) : (afterNegation text).length ≤ text.length := by
  fun_cases afterNegation text <;> simp

def globParts : Text → Except GlobFault (List GlobPart)
  | [] => .ok []
  | ['\\'] => .error .malformed
  | '\\' :: c :: rest => (globParts rest).map (.char c :: ·)
  | '*' :: rest => (globParts rest).map (.run :: ·)
  | '?' :: rest => (globParts rest).map (.any :: ·)
  | '[' :: rest =>
    let text := afterNegation rest
    match h : bracketInside? text with
    | none => .error .unclosed
    | some (inside, behind) =>
      have : behind.length < rest.length :=
        Nat.lt_of_lt_of_le (bracketInside?_length h) (afterNegation_length rest)
      (globParts behind).map
        (.among (text.length < rest.length) (bracketRanges inside) :: ·)
  | c :: rest => (globParts rest).map (.char c :: ·)
termination_by text => text.length

/-- Whether a part lists a range whose ends are the wrong way round. -/
def GlobPart.isReversed : GlobPart → Bool
  | among _ ranges => ranges.any fun r => r.2 < r.1
  | _ => false

/-- Whether a segment lists a range whose ends are the wrong way round. -/
def GlobSegment.isReversed : GlobSegment → Bool
  | parts ps => ps.any GlobPart.isReversed
  | _ => false

def GlobSegment.ofText (text : Text) : Except GlobFault GlobSegment :=
  if text = ['*', '*'] then .ok .folders
  else if text = ['*'] then .ok .name
  else (globParts text).map .parts

def isFolders (segment : Text) : Bool := segment = ['*', '*']

/-- The segments with only one of neighbours that stand for any number of folders. -/
def collapseFolders : List Text → List Text
  | a :: b :: rest =>
    if isFolders a && isFolders b then collapseFolders (b :: rest)
    else a :: collapseFolders (b :: rest)
  | segments => segments

/-- The segments of a glob from the root. A glob of one segment that does not start with a slash can
stand at any depth, and what ends with a slash stands for what is in the folder. -/
def rootSegments (text : Text) : List Text :=
  let segments := match splitOn '/' text with
    | [] :: rest => rest
    | [segment] => if isFolders segment then [segment] else [['*', '*'], segment]
    | [segment, []] => if isFolders segment then [segment, []] else [['*', '*'], segment, []]
    | segments => segments
  match segments.reverse with
  | [] :: front =>
    if front.isEmpty then segments else collapseFolders (front.reverse ++ [['*', '*']])
  | _ => collapseFolders segments

def Glob.ofText (text : Text) : Except GlobFault Glob := do
  let segments := rootSegments text
  if segments = [] then throw .malformed
  if segments = [[]] then return .nested
  if segments = [['*', '*']] then
    return if text.getLast? = some '/' then .nested else .all
  if segments = [['*', '*'], ['*']] then return .all
  if segments = [['*', '*'], ['*'], ['*', '*']] then return .nested
  let read ← segments.mapM GlobSegment.ofText
  if read.any GlobSegment.isReversed then throw .malformed
  return .along read

def nameChar : Pattern := .one (· ≠ '/')

def GlobPart.pattern : GlobPart → Pattern
  | char c => .one (· == c)
  | any => nameChar
  | run => .many nameChar
  | among negated ranges =>
    .one fun c => ranges.any (fun r => r.1 ≤ c && c ≤ r.2) != negated

def GlobSegment.namePattern : GlobSegment → Pattern
  | parts ps => .cat (ps.map GlobPart.pattern)
  | _ => .oneOrMore nameChar

def lineChars : Pattern := .oneOrMore (.one (· ≠ '\n'))

def textEnd : Pattern := .check fun _ rest => rest = [] || rest = ['\n']

/-- What can follow a whole path that fits: the end, or what is in the folder. -/
def pathEnd : Pattern := .alt "/" textEnd

/-- The stretches that the segments from some place of a glob on fit, each with the slash in front
of it. At the start, or behind folders at the start, there is no slash in front. -/
def laterSegments : (isFirst : Bool) → List GlobSegment → Pattern
  | _, [] => .nothing
  | _, [.folders] => "/"
  | _, .folders :: rest => .seq (.optional (.seq "/" lineChars)) (laterSegments false rest)
  | isFirst, segment :: rest =>
    .seq (if isFirst then .nothing else "/")
      (.seq segment.namePattern (if rest.isEmpty then pathEnd else laterSegments false rest))

/-- The stretches at the start of a path that segments fit. -/
def segmentsPattern : List GlobSegment → Pattern
  | .folders :: rest => .seq (.optional (.seq lineChars "/")) (laterSegments true rest)
  | segments => laterSegments true segments

def Glob.fits : Glob → Text → Bool
  | all, path => path.any (· ≠ '\n')
  | nested, path => path.contains '/'
  | along segments, path => (segmentsPattern segments).fits path

end CodeGraft
