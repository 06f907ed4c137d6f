import CodeGraft.Text.Basic

/-!
# Log records

A log record has a level, the channel of the part of the program that it comes from, and a message.
Only records at or above a threshold are shown.
-/

namespace CodeGraft

/-- How serious a log record is. -/
inductive Level where
  | debug
  | info
  | warning
  | error
  deriving DecidableEq, Repr

namespace Level

def severity : Level → Nat
  | debug => 10
  | info => 20
  | warning => 30
  | error => 40

def name : Level → Text
  | debug => "DEBUG"
  | info => "INFO"
  | warning => "WARNING"
  | error => "ERROR"

def ofName? (word : Text) : Option Level := [debug, info, warning, error].find? (·.name = word)

end Level

/-- The part of the program that a log record comes from. -/
inductive Channel where
  | blocks
  | index
  | apply
  | ignore
  | backup
  | history
  | desktop
  | command
  deriving DecidableEq, Repr

def Channel.name : Channel → Text
  | blocks => "chatapply.extract.blocks"
  | index => "chatapply.index"
  | apply => "chatapply.apply"
  | ignore => "chatapply.utils.gitignore"
  | backup => "chatapply.collaborators.backup"
  | history => "chatapply.collaborators.history"
  | desktop => "chatapply.system"
  | command => "chatapply.cli"

structure LogRecord where
  level : Level
  channel : Channel
  message : Text
  deriving DecidableEq

namespace LogRecord

def line (r : LogRecord) : Text := .glue [r.level.name, " ", r.channel.name, ": ", r.message]

def shown (threshold : Level) (records : List LogRecord) : List Text :=
  (records.filter (threshold.severity ≤ ·.level.severity)).map line

end LogRecord

/-- Where the details of a session go that only those who follow it closely see. -/
inductive Follower where
  /-- To someone who was given. -/
  | given
  /-- To a log of its own, with the number of the least level that it shows. -/
  | named (name : Text) (severity : Int)
  | nobody
  deriving DecidableEq

namespace Follower

def defaultName : Text := "chatapply"

/-- Who follows a session (`resolve_logger`): someone who is given, or a log if one is wanted. -/
def choose (isGiven isWanted : Bool) (name : Text) (severity : Int) : Follower :=
  if isGiven then given
  else if isWanted then named (if name.isEmpty then defaultName else name) severity
  else nobody

end Follower

end CodeGraft
