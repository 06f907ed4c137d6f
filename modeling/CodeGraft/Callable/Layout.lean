import CodeGraft.Text.Basic

/-!
# Layout of indented code

Where blocks are made by indentation, a line belongs to a block by the width of its leading blanks,
unless it starts inside a triple-quoted literal. Whether such a literal is open is carried from line
to line (`triple_quote_state`).
-/

namespace CodeGraft

/-- The width of the blanks in front of a line (`indent_width`); a tab counts as four. -/
def indentWidth : Text → Nat
  | ' ' :: line => indentWidth line + 1
  | '\t' :: line => indentWidth line + 4
  | _ => 0

/-- The quotes that a one-line or a triple-quoted literal can have. -/
inductive Quote where
  | single
  | double
  deriving DecidableEq, Repr

namespace Quote

def char : Quote → Char
  | .single => '\''
  | .double => '"'

def ofChar? (c : Char) : Option Quote :=
  if c = '\'' then some .single else if c = '"' then some .double else none

def triple (q : Quote) : Text := List.replicate 3 q.char

end Quote

/-- What a reader of a line of indented code is in the middle of. -/
inductive LineMode where
  | code
  /-- A literal that ends with its quote or the line. -/
  | short (q : Quote)
  /-- A triple-quoted literal. -/
  | long (q : Quote)
  | comment
  /-- The next character is passed over. -/
  | passing (mode : LineMode)
  deriving DecidableEq, Repr

namespace LineMode

def next : LineMode → (c : Char) → (ahead : Text) → LineMode
  | .code, c, ahead =>
    if c = '#' then .comment
    else match Quote.ofChar? c with
      | none => .code
      | some q =>
        if Text.startsWith (c :: ahead) q.triple then .passing (.passing (.long q)) else .short q
  | .short q, c, _ =>
    if c = '\\' then .passing (.short q)
    else if c = q.char ∨ c = '\n' then .code
    else .short q
  | .long q, c, ahead =>
    if c = '\\' then .passing (.long q)
    else if Text.startsWith (c :: ahead) q.triple then .passing (.passing .code)
    else .long q
  | .comment, _, _ => .comment
  | .passing mode, _, _ => mode

def read : LineMode → Text → LineMode
  | mode, [] => mode
  | mode, c :: text => read (mode.next c text) text

def openLiteral? : LineMode → Option Quote
  | .long q => some q
  | .passing mode => mode.openLiteral?
  | _ => none

end LineMode

def openLiteralAfter (before : Option Quote) (line : Text) : Option Quote :=
  ((before.elim .code .long : LineMode).read line).openLiteral?

end CodeGraft
