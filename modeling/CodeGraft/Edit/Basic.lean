import CodeGraft.Text.Basic

/-!
# Edits

An edit replaces the stretch between two offsets of a text. All edits of a list refer to the same
text. They are applied from left to right (`apply_edits`), and refused when one of them leaves the
text or touches what an earlier one has replaced.
-/

namespace CodeGraft

/-- A replacement of the stretch from `start` up to but not including `stop` (`EditOperation`). -/
structure Edit where
  start : Int
  stop : Int
  replacement : Text
  deriving DecidableEq

/-- Why a list of edits cannot be applied. -/
inductive EditError where
  /-- The ends of an edit are out of order or outside of a text of the given length. -/
  | outside (start stop : Int) (length : Nat)
  /-- An edit starts in front of the offset that earlier edits have reached. -/
  | overlap (start stop : Int) (reached : Nat)
  deriving DecidableEq

namespace EditError

def message : EditError → Text
  | outside start stop length =>
    .glue ["Edit range ", .ofInt start, ":", .ofInt stop, " is outside of the text (length ",
      .ofNat length, ")"]
  | overlap start stop reached =>
    .glue ["Edit range ", .ofInt start, ":", .ofInt stop, " overlaps a previous edit ending at ",
      .ofNat reached]

end EditError

namespace Edit

def inRange (length : Nat) (e : Edit) : Bool := 0 ≤ e.start && e.start ≤ e.stop && e.stop ≤ length

/-- Whether an edit comes before another or shares both ends with it. -/
def precedes (a b : Edit) : Bool := a.start < b.start || (a.start = b.start && a.stop ≤ b.stop)

theorem precedes_trans (a b c : Edit) (hab : a.precedes b = true) (hbc : b.precedes c = true) :
    a.precedes c = true := by
  simp only [precedes, Bool.or_eq_true, Bool.and_eq_true, decide_eq_true_eq] at *
  omega

theorem precedes_total (a b : Edit) : (a.precedes b || b.precedes a) = true := by
  simp only [precedes, Bool.or_eq_true, Bool.and_eq_true, decide_eq_true_eq]
  omega

/-- The edits by start and then by end; edits that share both keep their order. -/
def sorted (edits : List Edit) : List Edit := edits.mergeSort precedes

theorem sorted_pairwise (edits : List Edit) :
    (sorted edits).Pairwise fun a b => a.precedes b = true :=
  List.pairwise_mergeSort precedes_trans precedes_total edits

theorem mem_sorted {e : Edit} {edits : List Edit} : e ∈ sorted edits ↔ e ∈ edits :=
  List.mem_mergeSort

/-- The text from offset `reached` on with the edits applied, which are given in order. -/
def spliceFrom (text : Text) (reached : Nat) : List Edit → Except EditError Text
  | [] => .ok (text.drop reached)
  | e :: edits =>
    if e.start < reached then .error (.overlap e.start e.stop reached)
    else match spliceFrom text e.stop.toNat edits with
      | .ok rest => .ok (Text.slice text reached e.start.toNat ++ e.replacement ++ rest)
      | .error error => .error error

def apply (text : Text) (edits : List Edit) : Except EditError Text :=
  match edits.find? fun e => !e.inRange text.length with
  | some e => .error (.outside e.start e.stop text.length)
  | none => spliceFrom text 0 (sorted edits)

end Edit

end CodeGraft
