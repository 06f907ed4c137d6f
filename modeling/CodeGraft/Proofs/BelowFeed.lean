import CodeGraft.Proofs.Cuts
import CodeGraft.Proofs.Indexes
import CodeGraft.Proofs.NeededChars

/-!
# Texts below a line feed

With a line feed above it a text is read as before, with each place one character further on. Only the
tests of the character in front could notice, and they take the start of a text for the start of a line.
So what a pattern, a search or the body of a callable leads to moves on with the place it starts at, and
the spans of a text move on by one character.
-/

namespace CodeGraft

open Text Pattern Cursor

/-- The place as it is when a line feed stands above the text. -/
def Cursor.below (a : Cursor) : Cursor where
  offset := 1 + a.offset
  before := a.before.or (some '\n')
  rest := a.rest
  captures := a.captures.map (·.shifted 1)

/-- What was found, as it is when a line feed stands above the text. -/
def Pattern.Found.below (f : Found) : Found := ⟨f.start.below, f.stop.below⟩

def Span.shifted (s : Span) (n : Nat) : Span := { s with start := s.start + n }

@[simp] theorem Span.shifted_zero (s : Span) : s.shifted 0 = s := by
  rw [shifted, Int.natCast_zero, Int.add_zero]

theorem Span.shifted_shifted (s : Span) (m n : Nat) : (s.shifted m).shifted n = s.shifted (m + n) := by
  simp only [shifted, Int.natCast_add, Int.add_assoc]

variable {a b c : Cursor} {p : Pattern} {shape : Shape} {source : Text}

namespace Cursor

@[simp] theorem below_rest (a : Cursor) : a.below.rest = a.rest := rfl

@[simp] theorem below_offset (a : Cursor) : a.below.offset = 1 + a.offset := rfl

theorem below_next (a : Cursor) : a.below.next = a.next.below := by
  simp only [next, below_rest]
  cases a.rest with
  | nil => rfl
  | cons x rest => rfl

theorem below_skip (n : Nat) (a : Cursor) : a.below.skip n = (a.skip n).below := by
  induction n generalizing a with
  | zero => rfl
  | succ n ih => rw [skip, below_next, ih, skip]

theorem below_capture (a first : Cursor) (label : Label) :
    a.below.capture first.below label = (a.capture first label).below := by
  simp [capture, below, Capture.shifted, Nat.add_sub_add_left]

theorem below_captured? (a : Cursor) (label : Label) :
    a.below.captured? label = (a.captured? label).map (·.shifted 1) := by
  simp only [captured?, below, List.find?_map]
  rfl

@[simp] theorem below_capturedText (a : Cursor) (label : Label) :
    a.below.capturedText label = a.capturedText label := by
  rw [capturedText, below_captured?, Option.map_map]
  rfl

end Cursor

namespace Pattern

/-- A test that takes the start of a text for a place behind a line feed. -/
def StartsLine (holds : Option Char → Text → Bool) : Prop :=
  ∀ before rest, holds (before.or (some '\n')) rest = holds before rest

variable {k k' : Cursor → Option Cursor}

theorem guarded_below
    (hp : ∀ {a k k'}, (∀ b, k b.below = (k' b).map below) →
      p.attempt a.below k = (p.attempt a k').map below)
    (hk : ∀ b, k b.below = (k' b).map below) (a : Cursor) :
    (p.attempt a.below fun b => if a.below.offset < b.offset then k b else none) =
      (p.attempt a fun b => if a.offset < b.offset then k' b else none).map below := by
  refine hp fun b => ?_
  simp only [below_offset, Nat.add_lt_add_iff_left]
  split
  next => exact hk b
  next => rfl

theorem repeatMost_below
    (hp : ∀ {a k k'}, (∀ b, k b.below = (k' b).map below) →
      p.attempt a.below k = (p.attempt a k').map below)
    (hk : ∀ b, k b.below = (k' b).map below) (bound : Text) (a : Cursor) :
    repeatMost p.attempt bound a.below k = (repeatMost p.attempt bound a k').map below := by
  induction bound generalizing a with
  | nil => exact hk a
  | cons x bound ih => rw [repeatMost_cons, repeatMost_cons, Option.map_or, guarded_below hp ih, hk]

theorem repeatLeast_below
    (hp : ∀ {a k k'}, (∀ b, k b.below = (k' b).map below) →
      p.attempt a.below k = (p.attempt a k').map below)
    (hk : ∀ b, k b.below = (k' b).map below) (bound : Text) (a : Cursor) :
    repeatLeast p.attempt bound a.below k = (repeatLeast p.attempt bound a k').map below := by
  induction bound generalizing a with
  | nil => exact hk a
  | cons x bound ih => rw [repeatLeast_cons, repeatLeast_cons, Option.map_or, guarded_below hp ih, hk]

theorem attempt_below (hp : p.Every StartsLine fun _ => True) (hk : ∀ b, k b.below = (k' b).map below) :
    p.attempt a.below k = (p.attempt a k').map below := by
  induction p generalizing a k k' with
  | nothing => exact hk a
  | one accepts =>
    simp only [attempt, below_rest]
    cases a.rest with
    | nil => rfl
    | cons x rest =>
      dsimp only
      split
      next => rw [below_next, hk]
      next => rfl
  | check holds =>
    have hsame : holds a.below.before a.below.rest = holds a.before a.rest := hp _ _
    simp only [attempt, hsame]
    split
    next => exact hk a
    next => rfl
  | seq p q ihp ihq => exact ihp hp.1 fun b => ihq hp.2 hk
  | alt p q ihp ihq => rw [attempt_alt, attempt_alt, Option.map_or, ihp hp.1 hk, ihq hp.2 hk]
  | many p ih => exact repeatMost_below (fun hk => ih hp hk) hk a.rest a
  | few p ih => exact repeatLeast_below (fun hk => ih hp hk) hk a.rest a
  | capture label p ih =>
    refine ih hp.2 fun b => ?_
    rw [below_capture, hk]

theorem attempt_some_below (hp : p.Every StartsLine fun _ => True) (a : Cursor) :
    p.attempt a.below some = (p.attempt a some).map below :=
  attempt_below hp fun _ => rfl

theorem fitAt?_below (hp : p.Every StartsLine fun _ => True) (a : Cursor) :
    p.fitAt? a.below = (p.fitAt? a).map below :=
  attempt_some_below hp a.fresh

theorem searchFrom_below (hp : p.Every StartsLine fun _ => True) (offset : Nat) (before : Option Char)
    (text : Text) :
    p.searchFrom (1 + offset) (before.or (some '\n')) text =
      (p.searchFrom offset before text).map Found.below := by
  have hattempt : ∀ offset before text, p.attempt ⟨1 + offset, before.or (some '\n'), text, []⟩ some =
      (p.attempt ⟨offset, before, text, []⟩ some).map below :=
    fun offset before text => attempt_some_below hp ⟨offset, before, text, []⟩
  induction text generalizing offset before with
  | nil =>
    rw [searchFrom, searchFrom, hattempt, Option.map_map, Option.map_map]
    rfl
  | cons x text ih =>
    rw [searchFrom, searchFrom, hattempt]
    cases p.attempt ⟨offset, before, x :: text, []⟩ some with
    | some stop => rfl
    | none => exact ih (offset + 1) (some x)

theorem search?_below (hp : p.Every StartsLine fun _ => True) (a : Cursor) :
    p.search? a.below = (p.search? a).map Found.below :=
  searchFrom_below hp a.offset a.before a.rest

theorem startsLine_wordEdge : StartsLine fun before rest => isWordEdge before rest.head? := by
  intro before rest
  cases before with
  | none => rfl
  | some c => rfl

theorem startsLine_lineStart : StartsLine fun before _ => before.all (· == '\n') := by
  intro before rest
  cases before with
  | none => rfl
  | some c => rfl

theorem startsLine_notAfter {accepts : Char → Bool} (h : accepts '\n' = false) :
    StartsLine fun before _ => !before.any accepts := by
  intro before rest
  cases before with
  | none => simp [h]
  | some c => rfl

end Pattern

/-! ### Bodies -/

theorem Delimiter.close?_below (d : Delimiter) (style : CommentStyle) (a : Cursor) :
    d.close? style a.below = (d.close? style a).map below := by
  rw [close?, close?, below_rest, Option.map_map]
  refine Option.map_congr fun n _ => ?_
  rw [below_skip]
  rfl

theorem braceBody?_below (a : Cursor) : braceBody? a.below = (braceBody? a).map below := by
  have hopening : ∀ b : Cursor, bodyOpening.fitAt? b.below = (bodyOpening.fitAt? b).map below :=
    fitAt?_below (by simp [bodyOpening, Every])
  simp only [braceBody?, Delimiter.close?_below, bind, Option.bind_map, Function.comp_def, hopening,
    Option.map_bind]

namespace Shape

theorem expressionEnd?_below (a : Cursor) : expressionEnd? a.below = (expressionEnd? a).map below := by
  simp only [expressionEnd?, below_rest, below_skip]
  split
  next => rfl
  next => rfl

theorem arrowHead?_below (a : Cursor) : arrowHead? a.below = (arrowHead? a).map below := by
  have harrow : ∀ b : Cursor, arrow.fitAt? b.below = (arrow.fitAt? b).map below :=
    fitAt?_below (by simp [arrow])
  have hbare : ∀ b : Cursor, bareParameterArrow.fitAt? b.below =
      (bareParameterArrow.fitAt? b).map below :=
    fitAt?_below (by simp [bareParameterArrow])
  simp only [arrowHead?, below_rest]
  split
  next =>
    simp only [below_next, Delimiter.close?_below, bind, Option.bind_map, Function.comp_def, harrow,
      Option.map_bind]
  next => exact hbare a

theorem boundCallableEnd?_below (a : Cursor) :
    boundCallableEnd? a.below = (boundCallableEnd? a).map below := by
  have hlambda : lambdaHead.fitAt? a.below = (lambdaHead.fitAt? a).map below :=
    fitAt?_below (by simp [lambdaHead, Every, startsLine_wordEdge]) a
  have hfunction : functionHead.fitAt? a.below = (functionHead.fitAt? a).map below :=
    fitAt?_below (by simp [functionHead, startsLine_wordEdge]) a
  simp only [boundCallableEnd?, hlambda, hfunction, arrowHead?_below]
  cases lambdaHead.fitAt? a with
  | some body => exact expressionEnd?_below body
  | none =>
    cases functionHead.fitAt? a with
    | some opened => exact braceBody?_below opened
    | none =>
      cases arrowHead? a with
      | none => rfl
      | some body =>
        simp only [Option.map_none, Option.map_some, below_rest]
        split
        next => rw [below_next, Delimiter.close?_below]
        next => exact expressionEnd?_below body

theorem blockEnd_below (header : Nat) (a : Cursor) :
    blockEnd header a.below = (blockEnd header a).below := by
  simp only [blockEnd, below_rest, below_skip]
  split
  next => rfl
  next =>
    split
    next => rfl
    next => rfl

theorem header_startsLine (shape : Shape) : shape.header.Every StartsLine fun _ => True := by
  have hcall : StartsLine fun before _ => !before.any fun c => isNameChar c || c = '.' :=
    startsLine_notAfter (by decide)
  cases shape with
  | declaration => simp [header, declarationHeader, Every, startsLine_wordEdge]
  | assigned => simp [header, assignedHeader, Every, startsLine_wordEdge, startsLine_lineStart]
  | callShaped => simpa [header, callHeader, Every, startsLine_wordEdge] using hcall
  | indentation => simp [header, indentationHeader, Every, startsLine_lineStart]

theorem bounds?_below (shape : Shape) (f : Found) :
    shape.bounds? f.below = (shape.bounds? f).map fun ends => (1 + ends.1, ends.2.below) := by
  cases shape with
  | declaration =>
    simp only [bounds?, Found.below, braceBody?_below, bind, Option.bind_map, Option.map_bind]
    rfl
  | assigned =>
    have hfirst : ((f.stop.below.captured? .keyword).orElse fun _ => f.stop.below.captured? .name) =
        ((f.stop.captured? .keyword).orElse fun _ => f.stop.captured? .name).map (·.shifted 1) := by
      rw [below_captured?, below_captured?]
      cases f.stop.captured? .keyword <;> rfl
    simp only [bounds?, Found.below, boundCallableEnd?_below, hfirst, bind, Option.bind_map,
      Option.map_bind, Function.comp_def]
    rfl
  | callShaped =>
    simp only [bounds?, Found.below, below_capturedText, braceBody?_below]
    split
    next => rfl
    next =>
      simp only [bind, Option.bind_map, Option.map_bind]
      rfl
  | indentation =>
    have hcolon : ∀ b : Cursor, blockColon.fitAt? b.below = (blockColon.fitAt? b).map below :=
      fitAt?_below (by simp [blockColon])
    simp only [bounds?, Found.below, Delimiter.close?_below, below_captured?, below_capturedText,
      hcolon, blockEnd_below, bind, Option.bind_map, Option.map_bind, Function.comp_def]
    rfl

theorem cut_below (source name : Text) (start stop : Nat) :
    Span.cut ('\n' :: source) name (1 + start) (1 + stop) =
      (Span.cut source name start stop).shifted 1 := by
  simp only [Span.cut, Span.shifted, slice, Nat.add_comm 1, List.take_succ_cons, List.drop_succ_cons,
    Int.natCast_add]

theorem spansFrom_below (shape : Shape) (source : Text) (bound : Nat) (a : Cursor) :
    shape.spansFrom ('\n' :: source) bound a.below =
      (shape.spansFrom source bound a).map (·.shifted 1) := by
  induction bound generalizing a with
  | zero => rfl
  | succ bound ih =>
    rw [spansFrom, spansFrom, search?_below shape.header_startsLine]
    cases shape.header.search? a with
    | none => rfl
    | some f =>
      simp only [Option.map_some, bounds?_below]
      cases shape.bounds? f with
      | none => exact ih f.stop
      | some ends =>
        simp only [Option.map_some, Found.below, below_capturedText, below_offset, cut_below,
          Nat.add_le_add_iff_left, List.map_cons, ← ih]
        split
        next => rfl
        next => rfl

theorem search?_of_feed (shape : Shape) (source : Text) :
    shape.header.search? (Cursor.start ('\n' :: source)) =
      shape.header.search? (Cursor.start source).below := by
  have hnone : shape.header.attempt ⟨0, none, '\n' :: source, []⟩ some = none :=
    attempt_eq_none_of_shuns shape.header_shuns_feed shape.header_consumes rfl some
  rw [search?, Cursor.start, searchFrom, hnone]
  rfl

theorem spansFrom_eq_of_lt {bound : Nat} (h : source.length < bound) :
    shape.spansFrom source bound (Cursor.start source) = shape.spans source := by
  have hin := IsIn.start source
  have hbound : ∀ n, source.length < n → source.length < (Cursor.start source).offset + n := by
    intro n hn
    rwa [Cursor.start, Nat.zero_add]
  have hspans : shape.checkedFrom source bound (Cursor.start source) = .ok (shape.spans source) :=
    checkedFrom_eq hin (hbound _ h) (hbound _ (Nat.lt_succ_self _))
  exact Except.ok.inj ((checkedFrom_eq hin (hbound _ h) (hbound _ h)).symm.trans hspans)

theorem spans_below (shape : Shape) (source : Text) :
    shape.spans ('\n' :: source) = (shape.spans source).map (·.shifted 1) := by
  have hstart : shape.spans ('\n' :: source) =
      shape.spansFrom ('\n' :: source) (source.length + 2) (Cursor.start source).below := by
    rw [spans, spansFrom, spansFrom, search?_of_feed]
    rfl
  rw [hstart, spansFrom_below, spansFrom_eq_of_lt (by omega)]

end Shape

end CodeGraft
