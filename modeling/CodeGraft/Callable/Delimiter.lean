import CodeGraft.Pattern.Basic

/-!
# Matching delimiters

A delimiter is matched by the first closer that balances it, where brackets inside string literals
and comments do not count. The reader of source text is an automaton: each character, with one
character of lookahead, moves it from one mode to the next, and only what it reads in mode `code`
counts. A literal ends at its quote or, unless it is a template literal, at the end of the line;
a backslash in a literal hides the next character.
-/

namespace CodeGraft

inductive CommentStyle where
  /-- Line comments behind two slashes and block comments between `/*` and `*/`. -/
  | slashes
  /-- Line comments behind a hash sign. -/
  | hash
  /-- No comments. -/
  | none
  deriving DecidableEq, Repr

/-- What a reader of source text is in the middle of. -/
inductive ReadMode where
  | code
  /-- A string literal that ends at the given quote. -/
  | literal (quote : Char)
  | lineComment
  | blockComment
  /-- The next character is passed over, whatever it is. -/
  | passing (mode : ReadMode)
  deriving DecidableEq, Repr

def isQuote (c : Char) : Bool := c = '\'' || c = '"' || c = '`'

def ReadMode.next (style : CommentStyle) : ReadMode → (c : Char) → (ahead : Option Char) → ReadMode
  | .code, c, ahead =>
    if isQuote c then .literal c
    else if style = .slashes ∧ c = '/' ∧ ahead = some '/' then .lineComment
    else if style = .slashes ∧ c = '/' ∧ ahead = some '*' then .passing .blockComment
    else if style = .hash ∧ c = '#' then .lineComment
    else .code
  | .literal quote, c, _ =>
    if c = '\\' then .passing (.literal quote)
    else if c = quote then .code
    else if c = '\n' ∧ quote ≠ '`' then .code
    else .literal quote
  | .lineComment, c, _ => if c = '\n' then .code else .lineComment
  | .blockComment, c, ahead =>
    if c = '*' ∧ ahead = some '/' then .passing .code else .blockComment
  | .passing mode, _, _ => mode

structure Delimiter where
  opener : Char
  closer : Char
  deriving DecidableEq, Repr

namespace Delimiter

def paren : Delimiter := ⟨'(', ')'⟩

def brace : Delimiter := ⟨'{', '}'⟩

def bracket : Delimiter := ⟨'[', ']'⟩

def ofOpener? (c : Char) : Option Delimiter := [paren, brace, bracket].find? (·.opener = c)

/-- How many characters stand before the closer that brings `depth` open delimiters down to none;
`mode` is what the reader is in the middle of. -/
def closingFrom (d : Delimiter) (style : CommentStyle) :
    (mode : ReadMode) → (depth : Nat) → Text → Option Nat
  | _, _, [] => none
  | mode, depth, c :: text =>
    let after := mode.next style c text.head?
    if mode = .code ∧ c = d.opener then
      (closingFrom d style after (depth + 1) text).map (· + 1)
    else if mode = .code ∧ c = d.closer then
      if depth ≤ 1 then some 0 else (closingFrom d style after (depth - 1) text).map (· + 1)
    else (closingFrom d style after depth text).map (· + 1)

/-- The place behind the closer of the delimiter that was opened just before a place. -/
def close? (d : Delimiter) (style : CommentStyle) (c : Cursor) : Option Cursor :=
  (d.closingFrom style .code 1 c.rest).map fun n => c.skip (n + 1)

end Delimiter

/-- Why the closer of a delimiter cannot be looked for. -/
inductive DelimiterError where
  /-- The offset lies behind the text. -/
  | pastEnd
  /-- The character at the offset opens nothing. -/
  | opensNothing (c : Char)
  deriving DecidableEq, Repr

/-- The offset of the closer that matches the opener at an offset, if the text holds it
(`find_closing`). -/
def closingIndex (style : CommentStyle) (text : Text) (index : Nat) :
    Except DelimiterError (Option Nat) :=
  match text.drop index with
  | [] => .error .pastEnd
  | c :: rest =>
    match Delimiter.ofOpener? c with
    | none => .error (.opensNothing c)
    | some d => .ok ((d.closingFrom style .code 1 rest).map (index + 1 + ·))

end CodeGraft
