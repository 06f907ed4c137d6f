import CodeGraft.Machine.Call
import CodeGraft.Text.Blank
import CodeGraft.Text.Lowercase

/-!
# Asking at the console

A question is printed and answered (`console_confirm`) by typing one of its options or the first
letter of one, in any case. No answer, like the end of the input, declines.
-/

namespace CodeGraft.Console

open Text

def optionFor? (answer : Text) : List Text → Except Fault (Option Text)
  | [] => .ok none
  | option :: rest =>
    match option with
    | [] => .error .noLetter
    | letter :: _ =>
      if answer = lower option ∨ answer = lower [letter] then .ok (some option)
      else optionFor? answer rest

/-- How often a question is asked again at most. -/
def patience : Nat := 1000000000000

def ask (options : List Text) : (patience : Nat) → Errand (Option Text)
  | 0 => return none
  | patience + 1 => do
    let choices := joinWith ['/'] options
    match ← Machine.readLine (glue ["[", choices, "] "]) with
    | none => return none
    | some typed =>
      let answer := lower (trim typed)
      if answer.isEmpty then return none
      match optionFor? answer options with
      | .error e => throw e
      | .ok (some option) => return some option
      | .ok none =>
        Machine.print (glue ["Please answer one of: ", choices])
        ask options patience

def confirm (prompt : Text) (options : List Text) : Errand (Option Text) := do
  Machine.print prompt
  ask options patience

end CodeGraft.Console
