import CodeGraft.Text.Quoted

/-!
# Spans of callables

A span (`FunctionSpan`) is a named stretch of a source text. It keeps the stretch itself, so where
it stops follows from where it starts.
-/

namespace CodeGraft

structure Span where
  name : Text
  content : Text
  /-- The offset of the first character. -/
  start : Int
  deriving DecidableEq

/-- A description of a span whose ends are not as far apart as its content is long. -/
structure SpanLengthError where
  name : Text
  start : Int
  stop : Int
  length : Nat
  deriving DecidableEq

namespace Span

def stop (s : Span) : Int := s.start + s.content.length

theorem start_le_stop (s : Span) : s.start ≤ s.stop := by
  simp only [stop]; omega

def ofBounds? (name content : Text) (start stop : Int) : Except SpanLengthError Span :=
  if stop - start = content.length then .ok ⟨name, content, start⟩
  else .error ⟨name, start, stop, content.length⟩

theorem ofBounds?_stop {name content : Text} {start stop : Int} {s : Span}
    (h : ofBounds? name content start stop = .ok s) : s.start = start ∧ s.stop = stop := by
  simp only [ofBounds?] at h
  split at h
  next hlen =>
    cases h
    exact ⟨rfl, by simp only [Span.stop]; omega⟩
  next => cases h

/-- The stretch of `source` between two offsets, under a name. -/
def cut (source name : Text) (start stop : Nat) : Span :=
  ⟨name, Text.slice source start stop, start⟩

theorem cut_stop {source name : Text} {start stop : Nat} (h : start ≤ stop)
    (hs : stop ≤ source.length) : (cut source name start stop).stop = stop := by
  simp only [cut, Span.stop, Text.slice_length]
  omega

end Span

/-- The report of a span whose ends and content disagree. -/
def SpanLengthError.message (e : SpanLengthError) : Text :=
  .glue ["span '", e.name, "' length mismatch: ", .ofInt e.stop, " - ", .ofInt e.start, " != ",
    .ofNat e.length]

end CodeGraft
