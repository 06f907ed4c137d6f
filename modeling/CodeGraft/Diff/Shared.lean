import CodeGraft.Text.Basic

/-!
# Shared stretches of lines

Two versions of a text are compared by the stretches of lines that they share: the longest one, the
earliest in the old version and then in the new one if several are as long, and in the same way
those on its two sides. In a long new version, lines that occur often do not start a stretch, but a
stretch goes on over them.
-/

namespace CodeGraft.Diff

/-- A stretch of equal lines of two versions. -/
structure Shared where
  oldStart : Nat
  newStart : Nat
  size : Nat
  deriving DecidableEq, Repr

/-- A line of the new version and whether a shared stretch may be found by it. -/
structure Line where
  text : Text
  anchors : Bool

/-- The lines of the new version. In a version of two hundred lines or more, a line anchors nothing
when more than one in a hundred lines, and at least two, are equal to it. -/
def anchored (lines : List Text) : List Line :=
  let often := lines.length / 100 + 1
  if lines.length < 200 then lines.map (⟨·, true⟩)
  else lines.map fun line => ⟨line, lines.count line ≤ often⟩

theorem anchored_map_text (lines : List Text) : (anchored lines).map (·.text) = lines := by
  simp only [anchored]
  split <;> simp [Function.comp_def]

/-- For each line of the new version, how many lines up to it equal the lines up to `line`. The
counts for the old line before are given with a zero in front. -/
def runRow (line : Text) : List Line → (before : List Nat) → List Nat
  | [], _ => []
  | new :: news, before =>
    (if new.anchors && new.text == line then before.headD 0 + 1 else 0) ::
      runRow line news before.tail

/-- The best stretch when those that end in line `i` of the old version and line `j` or later of the
new one are taken up. -/
def bestInRow (i : Nat) : (j : Nat) → (row : List Nat) → Shared → Shared
  | _, [], best => best
  | j, run :: row, best =>
    bestInRow i (j + 1) row
      (if best.size < run then ⟨i + 1 - run, j + 1 - run, run⟩ else best)

/-- The best stretch when those that end in line `i` or later of the old version are taken up. -/
def bestFrom (news : List Line) : (i : Nat) → (before : List Nat) → List Text → Shared → Shared
  | _, _, [], best => best
  | i, before, old :: olds, best =>
    let row := runRow old news (0 :: before)
    bestFrom news (i + 1) row olds (bestInRow i 0 row best)

def commonLength : List Text → List Text → Nat
  | a :: as, b :: bs => if a = b then commonLength as bs + 1 else 0
  | _, _ => 0

/-- The longest shared stretch, extended over equal lines on both sides. -/
def longest (olds : List Text) (news : List Line) : Shared :=
  let best := bestFrom news 0 [] olds ⟨0, 0, 0⟩
  let texts := news.map (·.text)
  let back := commonLength (olds.take best.oldStart).reverse (texts.take best.newStart).reverse
  let ahead := commonLength (olds.drop (best.oldStart + best.size))
    (texts.drop (best.newStart + best.size))
  ⟨best.oldStart - back, best.newStart - back, back + best.size + ahead⟩

/-- The shared stretches of two parts of the versions that start at the given lines. -/
def sharedFrom (oldBase newBase : Nat) (olds : List Text) (news : List Line) : List Shared :=
  match longest olds news with
  | ⟨i, j, size⟩ =>
    if _h : 0 < size ∧ i < olds.length then
      sharedFrom oldBase newBase (olds.take i) (news.take j) ++
        ⟨oldBase + i, newBase + j, size⟩ ::
          sharedFrom (oldBase + i + size) (newBase + j + size) (olds.drop (i + size))
            (news.drop (j + size))
    else []
termination_by olds.length
decreasing_by
  · simp only [List.length_take]; omega
  · simp only [List.length_drop]; omega

/-- Joins stretches that follow one another in both versions; `s` comes before all others. -/
def joinFrom (s : Shared) : List Shared → List Shared
  | [] => [s]
  | t :: rest =>
    if s.oldStart + s.size = t.oldStart ∧ s.newStart + s.size = t.newStart then
      joinFrom ⟨s.oldStart, s.newStart, s.size + t.size⟩ rest
    else s :: joinFrom t rest

def join : List Shared → List Shared
  | [] => []
  | s :: rest => joinFrom s rest

def shared (olds news : List Text) : List Shared := join (sharedFrom 0 0 olds (anchored news))

end CodeGraft.Diff
