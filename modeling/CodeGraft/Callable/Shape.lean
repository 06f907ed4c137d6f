import CodeGraft.Callable.Delimiter
import CodeGraft.Callable.Layout
import CodeGraft.Callable.Span

/-!
# Shapes of callables

A callable is written in one of four shapes, each known by its header: a declaration behind a
keyword, a callable bound to a name, a method-shaped name with parameters and a body, and a
definition whose body is indented. The recognisers are `DeclarationRecognizer`,
`AssignedCallableRecognizer`, `CallShapedBodyRecognizer` and `IndentationBlockRecognizer`, in this
order. A header counts only when the shape's body follows it.
-/

namespace CodeGraft

open Text Pattern

def isNameChar (c : Char) : Bool := isWordChar c || c = '$'

/-- A name: a letter without accents, an underscore or a dollar sign, then name characters. -/
def identifier : Pattern :=
  .seq (.one fun c => c.isAlpha || c = '_' || c = '$') (.many (.one isNameChar))

/-- What may stand between a parameter list and the body: words of a result type or a clause, with
groups in parentheses; then the brace that opens the body. -/
def bodyOpening : Pattern := cat [
  .many (.alt (charNotIn "\x7b\x7d;=()\n") (cat ["(", .many (charNotIn "()\x7b\x7d;\n"), ")"])),
  blanks, "\x7b"]

/-- The place behind the body in braces that follows a parameter list, which was opened just before
`c` (`_brace_body_end`). -/
def braceBody? (c : Cursor) : Option Cursor := do
  let closed ← Delimiter.paren.close? .slashes c
  let opened ← bodyOpening.fitAt? closed
  Delimiter.brace.close? .slashes opened

/-- A notation for named callables. -/
inductive Shape where
  | declaration
  | assigned
  | callShaped
  | indentation
  deriving DecidableEq, Repr

namespace Shape

def all : List Shape := [declaration, assigned, callShaped, indentation]

def name : Shape → Text
  | declaration => "declaration"
  | assigned => "assigned"
  | callShaped => "call-shaped"
  | indentation => "indentation"

def ofName? (word : Text) : Option Shape := all.find? (·.name = word)

theorem ofName?_name (s : Shape) : ofName? s.name = some s := by cases s <;> decide

/-- A keyword, possibly a receiver in parentheses, a name, possibly type parameters, and the opening
parenthesis. -/
def declarationHeader : Pattern := cat [
  optional (cat [wordEdge, "async", someBlanks]),
  wordEdge,
  .alt
    (cat ["function", .alt (cat [blanks, "*", blanks]) someBlanks])
    (cat [anyWord ["func", "fn", "fun"], someBlanks,
      optional (cat ["(", .many (charNotIn "()\n"), ")", blanks])]),
  .capture .name identifier,
  blanks,
  optional (cat ["<", .many (charNotIn "<>\n"), ">", blanks]),
  "("]

/-- A binding keyword or the start of a line with modifiers, a name, possibly a type, and the equals
sign. -/
def assignedHeader : Pattern := cat [
  .alt
    (cat [wordEdge, .capture .keyword (anyWord ["const", "let", "var"]), someBlanks])
    (cat [lineStart, Pattern.indentation,
      .many (cat [anyWord ["static", "public", "private", "protected", "readonly"], someBlanks])]),
  .capture .name identifier,
  blanks,
  optional (cat [":", oneOrMoreFew (charNotIn "=\n")]),
  "=",
  blanks,
  optional (cat ["async", someBlanks])]

/-- A name that is no part of a longer name or of an access path, and the opening parenthesis. -/
def callHeader : Pattern := cat [
  optional (cat [wordEdge, "async", someBlanks]),
  notAfter fun c => isNameChar c || c = '.',
  .capture .name identifier,
  blanks,
  "("]

def indentationHeader : Pattern := cat [
  lineStart,
  .capture .indent Pattern.indentation,
  .capture .head (cat [
    optional (cat ["async", oneOrMore (charIn " \t")]),
    "def",
    oneOrMore (charIn " \t"),
    .capture .name
      (.seq (.one fun c => c.isAlpha || c = '_') (.many (.one isWordChar))),
    Pattern.indentation,
    "("])]

def header : Shape → Pattern
  | declaration => declarationHeader
  | assigned => assignedHeader
  | callShaped => callHeader
  | indentation => indentationHeader

def expressionEnd? (c : Cursor) : Option Cursor :=
  let expression := trimEnd (c.rest.takeWhile (· ≠ '\n'))
  if expression.isEmpty then none else some (c.skip expression.length)

def lambdaHead : Pattern := cat [
  "lambda", wordEdge, .many (charNotIn ":\n"), ":", Pattern.indentation]

/-- The start of a function expression, up to the opening parenthesis. -/
def functionHead : Pattern := cat [
  "function", wordEdge, blanks, optional "*", blanks, optional identifier, blanks, "("]

/-- The arrow behind a parameter list, possibly behind a result type. -/
def arrow : Pattern := cat [
  blanks, optional (cat [":", oneOrMore (charNotIn "=;\x7b\x7d\n")]), "=>", blanks]

def bareParameterArrow : Pattern := cat [identifier, blanks, "=>", blanks]

def arrowHead? (c : Cursor) : Option Cursor :=
  match c.rest with
  | '(' :: _ => do arrow.fitAt? (← Delimiter.paren.close? .slashes c.next)
  | _ => bareParameterArrow.fitAt? c

/-- The place behind the callable that starts at `c`: a lambda, a function expression, or parameters
with an arrow and a body that is a block or the rest of the line (`_callable_end`). -/
def boundCallableEnd? (c : Cursor) : Option Cursor :=
  match lambdaHead.fitAt? c with
  | some body => expressionEnd? body
  | none =>
    match functionHead.fitAt? c with
    | some opened => braceBody? opened
    | none =>
      match arrowHead? c with
      | none => none
      | some body =>
        match body.rest with
        | '{' :: _ => Delimiter.brace.close? .slashes body.next
        | _ => expressionEnd? body

/-- Words that look like a callable's name but open a control structure or are operators. -/
def controlWords : List Text := List.map String.toList [
  "if", "else", "elif", "for", "foreach", "while", "do", "switch", "case",
  "catch", "try", "finally", "return", "throw", "new", "delete", "typeof",
  "sizeof", "await", "yield", "with", "function", "func", "fn", "fun", "def",
  "lock", "using", "synchronized", "match", "when", "until", "unless", "super",
  "this", "in", "of", "and", "or", "not", "assert", "import", "export", "from"]

/-- What stands between the parameters and the block: possibly a result type, then the colon. -/
def blockColon : Pattern := cat [
  Pattern.indentation, optional (cat ["->", oneOrMore (charNotIn ":\n")]), ":"]

/-- Where the block goes on to, when its lines are given with the literal that is open in front of
them. The first of them starts at offset `start`, and the block reaches `stop` so far. A line
that is not blank ends the block if no literal is open and it is not indented deeper than the
header. -/
def blockStop (header : Nat) : (literal : Option Quote) → (start stop : Nat) → List Text → Nat
  | _, _, stop, [] => stop
  | literal, start, stop, line :: lines =>
    if isBlankText line then
      blockStop header (openLiteralAfter literal line) (start + line.length + 1) stop lines
    else if literal = none ∧ indentWidth line ≤ header then stop
    else
      blockStop header (openLiteralAfter literal line) (start + line.length + 1)
        (start + (trimEnd line).length) lines

/-- The place behind the block that follows a colon just before `c`: the rest of the line, or the
indented lines below it (`_block_end`). -/
def blockEnd (header : Nat) (c : Cursor) : Cursor :=
  let first := c.rest.takeWhile (· ≠ '\n')
  if !isBlankText first then c.skip (trimEnd first).length
  else
    match c.rest.drop first.length with
    | [] => c.skip first.length
    | _ :: below =>
      c.skip (blockStop header none (first.length + 1) first.length (lines below))

/-! ### Spans -/

/-- The start of a callable's span and the place behind it, when a header of the shape was found and
the shape's body follows. -/
def bounds? : Shape → Found → Option (Nat × Cursor)
  | declaration, h => do
    let stop ← braceBody? h.stop
    some (h.start.offset, stop)
  | assigned, h => do
    let stop ← boundCallableEnd? h.stop
    let first ← (h.stop.captured? .keyword).orElse fun _ => h.stop.captured? .name
    some (first.start, stop)
  | callShaped, h => do
    if controlWords.contains (h.stop.capturedText .name) then none
    let stop ← braceBody? h.stop
    some (h.start.offset, stop)
  | indentation, h => do
    let closed ← Delimiter.paren.close? .hash h.stop
    let colon ← blockColon.fitAt? closed
    let first ← h.stop.captured? .head
    some (first.start, blockEnd (indentWidth (h.stop.capturedText .indent)) colon)

/-- The spans of a shape at or behind the place `c` of a source text. Behind a span the search goes
on at its end, behind a header without a body at the end of the header; `bound` limits the number
of headers. -/
def spansFrom (shape : Shape) (source : Text) : (bound : Nat) → Cursor → List Span
  | 0, _ => []
  | bound + 1, c =>
    match shape.header.search? c with
    | none => []
    | some found =>
      match shape.bounds? found with
      | none => spansFrom shape source bound found.stop
      | some (start, stop) =>
        .cut source (found.stop.capturedText .name) start stop.offset ::
          spansFrom shape source bound
            (if found.stop.offset ≤ stop.offset then stop else found.stop)

/-- The spans of a shape, in the order of the source (`find_spans`). Every header is at least one
character long, so there are no more of them than characters. -/
def spans (shape : Shape) (source : Text) : List Span :=
  shape.spansFrom source (source.length + 1) (Cursor.start source)

end Shape

end CodeGraft
