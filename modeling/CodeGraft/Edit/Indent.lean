import CodeGraft.Text.Blank

/-!
# Moving code to another indentation

A callable that takes the place of another one is moved from the indentation of its own header to
that of the header it replaces. Its first line is put behind the old indentation and stays as it
is, and so do blank lines and lines that do not start with the indentation it was written at.
-/

namespace CodeGraft

open Text

/-- The blanks and tabs in front of the line that holds an offset (`_header_indent`). -/
def indentAt (text : Text) (offset : Nat) : Text :=
  let column := ((text.take offset).reverse.takeWhile (· ≠ '\n')).length
  (text.drop (offset - column)).takeWhile fun c => c = ' ' || c = '\t'

def reindentLine (old new line : Text) : Text :=
  if isBlankText line then line
  else match after? new line with
    | some rest => old ++ rest
    | none => line

/-- Code moved from the indentation `new` to the indentation `old` (`_reindent`). -/
def reindent (content old new : Text) : Text :=
  if old = new then content
  else match lines content with
    | [] => content
    | first :: body => unlines (first :: body.map (reindentLine old new))

theorem reindent_self (content indent : Text) : reindent content indent indent = content := by
  simp [reindent]

theorem reindentLine_blank {line : Text} (old new : Text) (h : isBlankText line = true) :
    reindentLine old new line = line := by
  simp [reindentLine, h]

theorem reindentLine_apart {new line : Text} (old : Text) (h : ¬new <+: line) :
    reindentLine old new line = line := by
  cases hafter : after? new line with
  | none => simp [reindentLine, hafter]
  | some rest => exact absurd ⟨rest, ((after?_eq_some_iff new line rest).mp hafter).symm⟩ h

theorem reindentLine_indented {new rest : Text} (old : Text)
    (h : isBlankText (new ++ rest) = false) :
    reindentLine old new (new ++ rest) = old ++ rest := by
  have hafter : after? new (new ++ rest) = some rest :=
    (after?_eq_some_iff new (new ++ rest) rest).mpr rfl
  simp [reindentLine, h, hafter]

theorem reindentLine_cases (old new line : Text) :
    reindentLine old new line = line ∨
      ∃ rest, line = new ++ rest ∧ reindentLine old new line = old ++ rest := by
  cases hblank : isBlankText line with
  | true => exact .inl (reindentLine_blank old new hblank)
  | false =>
    by_cases hindent : new <+: line
    · obtain ⟨rest, rfl⟩ := hindent
      exact .inr ⟨rest, rfl, reindentLine_indented old hblank⟩
    · exact .inl (reindentLine_apart old hindent)

theorem reindentLine_self (indent line : Text) : reindentLine indent indent line = line := by
  rcases reindentLine_cases indent indent line with hkept | ⟨rest, rfl, hmoved⟩
  · exact hkept
  · exact hmoved

end CodeGraft
