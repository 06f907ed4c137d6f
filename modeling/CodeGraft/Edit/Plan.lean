import CodeGraft.Edit.NameMatch
import CodeGraft.Edit.Section

/-!
# Planning where new code belongs

Three ways of placing new code in an existing text are tried in turn: callables replace those of
their names, the whole code replaces the section that mentions one of its declarations, or it
replaces the whole text. All edits of a plan refer to the existing text.
-/

namespace CodeGraft

/-- A way of placing new code. -/
inductive Tier where
  | nameMatch
  | sectionMatch
  | wholeDocument
  deriving DecidableEq, Repr

def Tier.name : Tier → Text
  | .nameMatch => "name-match"
  | .sectionMatch => "section-match"
  | .wholeDocument => "whole-document"

/-- Edits that place new code in an existing text. -/
structure Plan where
  tier : Tier
  edits : List Edit
  /-- The indexes that were consulted. -/
  indexes : List Index
  notes : List PlanNote

namespace Plan

def withoutNames (existing newCode : Text) (indexes : List Index) : Plan :=
  match sectionFor? existing newCode with
  | some s =>
    ⟨.sectionMatch, [⟨s.start, s.stop, newCode⟩], indexes,
      [.sectioned s.hitLine s.firstLine s.lastLine]⟩
  | none => ⟨.wholeDocument, [⟨0, existing.length, newCode⟩], indexes, [.unmatched]⟩

/-- The plan for new code (`build_patch_plan`); with `insertNew`, callables of new names are placed
as well. -/
def of (existing newCode : Text) (insertNew : Bool) : Plan :=
  let old := Index.of existing
  if old.spans.isEmpty then withoutNames existing newCode [old]
  else
    let new := Index.of newCode
    let found := NameMatch.of insertNew old new
    let edits := found.edits existing newCode
    if edits.isEmpty then withoutNames existing newCode [old, new]
    else
      ⟨.nameMatch, edits, [old, new],
        found.notes ++ found.added.map (fun pair => .inserted pair.1.name) ++
          [.matched edits.length]⟩

def apply (plan : Plan) (existing : Text) : Except EditError Text := Edit.apply existing plan.edits

end Plan

end CodeGraft
