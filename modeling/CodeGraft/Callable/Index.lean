import CodeGraft.Callable.Shape

/-!
# The index of a source text

The index holds the callables of a source text under distinct names. The shapes are tried one after
another, and a name that is already in the index is not taken again: the later shapes are looser
and more often mistaken.
-/

namespace CodeGraft

/-- The callables found in a source text. -/
structure Index where
  /-- The spans, those of earlier shapes first. -/
  spans : List Span
  /-- How many spans there were behind each shape. -/
  passes : List (Shape × Nat)

namespace Index

def empty : Index := ⟨[], []⟩

def addSpan (spans : List Span) (span : Span) : List Span :=
  if spans.any (·.name = span.name) then spans else spans ++ [span]

def addShape (source : Text) (index : Index) (shape : Shape) : Index :=
  let spans := (shape.spans source).foldl addSpan index.spans
  ⟨spans, index.passes ++ [(shape, spans.length)]⟩

/-- The index of a source text by the given shapes, in their order (`index_functions`). An empty
text is not searched. -/
def ofShapes (shapes : List Shape) (source : Text) : Index :=
  if source.isEmpty then empty else shapes.foldl (addShape source) empty

def of (source : Text) : Index := ofShapes Shape.all source

def find? (index : Index) (name : Text) : Option Span := index.spans.find? (·.name = name)

end Index

end CodeGraft
