import CodeGraft.Command.Grammar

/-!
# The command line

In front of the command stand the options that all commands share (`build_parser`); behind it stand
its own options and operands. An option that was given no value is kept as none, and only a command
that needs the value minds.
-/

namespace CodeGraft

open Text

namespace Command

def programName : Text := "chatapply"

structure Shared where
  verbose : Bool := false
  /-- The folder of the backups, if one was chosen; what was chosen can be no value. -/
  backupFolder : Option (Option Text) := none
  maxHistory : Option Int := some 50
  /-- The command and the words behind it. -/
  command : List Text := []

/-- Where a text with code blocks comes from. -/
structure Source where
  /-- A file; none is the user's input, and so is a single dash. -/
  file : Option Text := none
  clipboard : Bool := false

/-- What the command that applies code blocks is told. -/
structure ApplyOptions where
  source : Source := {}
  base : Option Text := some ['.']
  saveFolder : Option Text := none
  /-- Whether nothing is asked. -/
  yes : Bool := false
  confirmNew : Bool := false
  noDiff : Bool := false
  noBackup : Bool := false
  dryRun : Bool := false
  insertNew : Bool := false
  /-- Whether the written files are opened. -/
  view : Bool := false
  maxOpen : Option Int := some 5

end Command

inductive Command where
  | apply (options : Command.ApplyOptions)
  | blocks (source : Command.Source)
  | revert (entry : Option Int)
  | history
  | clearHistory

namespace Command

structure Invocation where
  shared : Shared
  command : Command

/-- A refusal of a command line, and who refuses it: the program or one of its commands. -/
structure Misuse where
  speaker : Text
  refusal : Refusal

def helpOption {σ : Type} : OptionRule σ := ⟨["-h", "--help"], .help⟩

def sharedGrammar : Grammar Shared where
  options := [
    helpOption,
    ⟨["-v", "--verbose"], .flag fun o => { o with verbose := true }⟩,
    ⟨["--backup-dir"], .text fun t o => { o with backupFolder := some t }⟩,
    ⟨["--max-history"], .integer fun n o => { o with maxHistory := n }⟩]
  operand := .rest fun words o => { o with command := words }

/-- What stands behind the command that applies code blocks. -/
def applyGrammar : Grammar ApplyOptions where
  options := [
    helpOption,
    ⟨["--clipboard"], .flag fun o => { o with source := { o.source with clipboard := true } }⟩,
    ⟨["--base"], .text fun t o => { o with base := t }⟩,
    ⟨["--save-folder"], .text fun t o => { o with saveFolder := t }⟩,
    ⟨["-y", "--yes"], .flag fun o => { o with yes := true }⟩,
    ⟨["--confirm-new"], .flag fun o => { o with confirmNew := true }⟩,
    ⟨["--no-diff"], .flag fun o => { o with noDiff := true }⟩,
    ⟨["--no-backup"], .flag fun o => { o with noBackup := true }⟩,
    ⟨["--dry-run"], .flag fun o => { o with dryRun := true }⟩,
    ⟨["--insert-new"], .flag fun o => { o with insertNew := true }⟩,
    ⟨["--open"], .flag fun o => { o with view := true }⟩,
    ⟨["--max-open"], .integer fun n o => { o with maxOpen := n }⟩]
  operand := .one fun file o => { o with source := { o.source with file := some file } }

/-- What stands behind the command that lists code blocks. -/
def blocksGrammar : Grammar Source where
  options := [helpOption, ⟨["--clipboard"], .flag fun s => { s with clipboard := true }⟩]
  operand := .one fun file s => { s with file := some file }

/-- What stands behind the command that takes a change back. -/
def revertGrammar : Grammar (Option Int) where
  options := [helpOption, ⟨["--entry"], .integer fun n _ => n⟩]
  operand := .none

def plainGrammar : Grammar Unit where
  options := [helpOption]
  operand := .none

def commandNames : List Text := ["apply", "blocks", "revert", "history", "clear-history"]

def readCommand (name : Text) (words : List Text) : Except Refusal (Command × List Text) :=
  if name = "apply".toList then
    (applyGrammar.read {} words).map fun r => (.apply r.values, r.leftOver)
  else if name = "blocks".toList then
    (blocksGrammar.read {} words).map fun r => (.blocks r.values, r.leftOver)
  else if name = "revert".toList then
    (revertGrammar.read (some 1) words).map fun r => (.revert r.values, r.leftOver)
  else if name = "history".toList then
    (plainGrammar.read () words).map fun r => (.history, r.leftOver)
  else
    (plainGrammar.read () words).map fun r => (.clearHistory, r.leftOver)

def Invocation.read (line : List Text) : Except Misuse Invocation :=
  match sharedGrammar.read {} line with
  | .error refusal => .error ⟨programName, refusal⟩
  | .ok shared =>
    match shared.values.command with
    | [] => .error ⟨programName, .commandMissing⟩
    | name :: words =>
      if !commandNames.contains name then
        .error ⟨programName, .unknownCommand name commandNames⟩
      else
        match readCommand name words with
        | .error refusal => .error ⟨programName ++ ' ' :: name, refusal⟩
        | .ok (command, left) =>
          match shared.leftOver ++ left with
          | [] => .ok ⟨shared.values, command⟩
          | words => .error ⟨programName, .leftOver words⟩

end Command

end CodeGraft
