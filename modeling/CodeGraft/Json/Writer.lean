import CodeGraft.Json.Value

/-!
# Writing JSON

Values are written over several lines, each level indented by two blanks, and with seven-bit
characters only: other characters are escaped as one unit of sixteen bits or as two.
-/

namespace CodeGraft.Json

def unitEscape (unit : Nat) : Text := '\\' :: 'u' :: Text.hexDigits 4 unit

/-- How a character is written inside of quotes. -/
def escapedChar (c : Char) : Text :=
  if c = '"' then ['\\', '"']
  else if c = '\\' then ['\\', '\\']
  else if c = '\n' then ['\\', 'n']
  else if c = '\r' then ['\\', 'r']
  else if c = '\t' then ['\\', 't']
  else if c = '\x08' then ['\\', 'b']
  else if c = '\x0c' then ['\\', 'f']
  else if 0x20 ≤ c.toNat ∧ c.toNat < 0x7F then [c]
  else if c.toNat < 0x10000 then unitEscape c.toNat
  else
    let n := c.toNat - 0x10000
    unitEscape (0xD800 + n / 0x400) ++ unitEscape (0xDC00 + n % 0x400)

def escaped (t : Text) : Text := '"' :: (t.flatMap escapedChar ++ ['"'])

def newLine (depth : Nat) : Text := '\n' :: List.replicate (2 * depth) ' '

namespace Value

mutual

def renderAt (depth : Nat) : Value → Text
  | null => "null"
  | bool b => if b then "true" else "false"
  | number n => n.text "Infinity" "NaN"
  | text t => escaped t
  | list [] => "[]"
  | list (item :: items) =>
    .glue ["[", newLine (depth + 1), item.renderAt (depth + 1), renderItems (depth + 1) items,
      newLine depth, "]"]
  | object [] => "\x7b\x7d"
  | object ((key, value) :: fields) =>
    .glue ["\x7b", newLine (depth + 1), escaped key, ": ", value.renderAt (depth + 1),
      renderFields (depth + 1) fields, newLine depth, "\x7d"]

def renderItems (depth : Nat) : List Value → Text
  | [] => []
  | item :: items =>
    .glue [",", newLine depth, item.renderAt depth, renderItems depth items]

def renderFields (depth : Nat) : List (Text × Value) → Text
  | [] => []
  | (key, value) :: fields =>
    .glue [",", newLine depth, escaped key, ": ", value.renderAt depth, renderFields depth fields]

end

def render (v : Value) : Text := v.renderAt 0

end Value

end CodeGraft.Json
