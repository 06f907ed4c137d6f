import CodeGraft.Callable.Index
import CodeGraft.Edit.Basic
import CodeGraft.Edit.Indent

/-!
# Replacing callables by name

Each callable of the new code whose name the existing text knows takes the place of the one of that
name (`_name_match_operations`). A callable that would overlap an earlier replacement is left out.
Callables of new names are left out too or, on request, inserted behind the replacement that
precedes them in the new code, or in front of all replacements when there is none.
-/

namespace CodeGraft

/-- Something that a planner reports. -/
inductive PlanNote where
  | skipped (name : Text)
  | inserted (name : Text)
  | matched (count : Nat)
  | sectioned (line first last : Nat)
  | unmatched
  deriving DecidableEq

def PlanNote.message : PlanNote → Text
  | skipped name => .glue ["Skipping '", name, "': its range overlaps an earlier replacement"]
  | inserted name => .glue ["Inserting new function '", name, "'"]
  | matched count => .glue ["Planned ", .ofNat count, " name-matched edit(s)"]
  | sectioned line first last =>
    .glue ["Section match on line ", .ofNat line, ": replacing lines ", .ofNat first, "-",
      .ofNat last]
  | unmatched => "No function or section match; replacing the whole document"

namespace Span

/-- Whether two spans share a character, or one of them lies strictly inside the other. -/
def overlaps (a b : Span) : Bool := a.start < b.stop && b.start < a.stop

theorem overlaps_comm (a b : Span) : a.overlaps b = b.overlaps a := by
  simp [overlaps, Bool.and_comm]

def isNestedIn (s : Span) (spans : List Span) : Bool :=
  spans.any fun other => other.name ≠ s.name && other.start ≤ s.start && s.stop ≤ other.stop

/-- Whether a span starts before another, or starts with it and is at least as long. -/
def precedes (a b : Span) : Bool := a.start < b.start || (a.start = b.start && b.stop ≤ a.stop)

end Span

/-- How the callables of new code are matched to those of an existing text. -/
structure NameMatch where
  /-- Each new span that replaces an existing one, with the one that it replaces. -/
  replaced : List (Span × Span) := []
  /-- Each new span to be inserted, with the existing span whose replacement precedes it. -/
  added : List (Span × Option Span) := []
  notes : List PlanNote := []

namespace NameMatch

def anchor? (m : NameMatch) : Option Span := m.replaced.getLast?.map (·.2)

/-- The existing span of the earliest start among those replaced. -/
def first? (m : NameMatch) : Option Span :=
  m.replaced.foldl (fun first pair =>
    match first with
    | none => some pair.2
    | some f => if pair.2.start < f.start then some pair.2 else some f) none

def addSpan (insertNew : Bool) (existing : Index) (all : List Span) (m : NameMatch)
    (span : Span) : NameMatch :=
  match existing.find? span.name with
  | none =>
    if insertNew && !span.isNestedIn all then { m with added := m.added ++ [(span, m.anchor?)] }
    else m
  | some old =>
    if m.replaced.any (old.overlaps ·.2) then { m with notes := m.notes ++ [.skipped span.name] }
    else { m with replaced := m.replaced ++ [(span, old)] }

/-- Matches the spans of the new code in the order of the text, an enclosing span before those
inside it. -/
def of (insertNew : Bool) (existing new : Index) : NameMatch :=
  let spans := new.spans.mergeSort Span.precedes
  spans.foldl (addSpan insertNew existing spans) {}

def replacement (existing newCode : Text) (pair : Span × Span) : Edit :=
  let (span, old) := pair
  ⟨old.start, old.stop, reindent span.content (indentAt existing old.start.toNat)
    (indentAt newCode span.start.toNat)⟩

def insertion (existing newCode : Text) (first : Span) (pair : Span × Option Span) : Edit :=
  let (span, anchor) := pair
  let newIndent := indentAt newCode span.start.toNat
  match anchor with
  | none =>
    let indent := indentAt existing first.start.toNat
    ⟨first.start, first.start, reindent span.content indent newIndent ++ "\n\n".toList ++ indent⟩
  | some old =>
    let indent := indentAt existing old.start.toNat
    ⟨old.stop, old.stop, "\n\n".toList ++ indent ++ reindent span.content indent newIndent⟩

def edits (existing newCode : Text) (m : NameMatch) : List Edit :=
  match m.first? with
  | none => []
  | some first =>
    Edit.sorted (m.replaced.map (replacement existing newCode) ++
      m.added.map (insertion existing newCode first))

end NameMatch

end CodeGraft
