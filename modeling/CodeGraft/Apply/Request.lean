import CodeGraft.Dialogue
import CodeGraft.Fault
import CodeGraft.History.Entry
import CodeGraft.Report
import CodeGraft.Time

/-!
# What a session asks for

A session that applies code blocks does nothing to the world itself. It asks the workspace for
files, the user for confirmation, the stores for backups and history entries, and the viewer to open
files; and it tells what it does.
-/

namespace CodeGraft

inductive Request where
  | fileExists (path : Text)
  | readText (path : Text)
  | writeText (path content : Text)
  | makeFolder (path : Text)
  /-- The paths of the files of a name. -/
  | findByName (name : Text)
  | absolutePath (path : Text)
  /-- Asks the user to choose one of the options. -/
  | confirm (prompt : Text) (options : List Text)
  /-- Keeps a copy of a file's content; the reply refers to it. -/
  | backup (path content : Text)
  /-- Puts an entry into the history; the reply says whether it was recorded. -/
  | record (entry : HistoryEntry)
  | view (path : Text)
  | clock
  /-- Tells the user something. -/
  | tell (message : Text)
  /-- Tells a detail to those who follow the session closely. -/
  | detail (message : Text)
  | log (entry : LogRecord)

abbrev Reply : Request → Type
  | .fileExists _ => Except Fault Bool
  | .readText _ => Except Fault Text
  | .writeText _ _ => Except Fault Unit
  | .makeFolder _ => Except Fault Unit
  | .findByName _ => Except Fault (List Text)
  | .absolutePath _ => Except Fault Text
  | .confirm _ _ => Except Fault (Option Text)
  | .backup _ _ => Except Fault (Option Text)
  | .record _ => Except Fault Bool
  | .view _ => Except Fault Unit
  | .clock => Instant
  | .tell _ => Unit
  | .detail _ => Unit
  | .log _ => Unit

abbrev Session := Dialogue Request Reply

abbrev Attempt := ExceptT Fault Session

/-- Who takes part in a session besides the workspace. -/
structure Company where
  confirms : Bool := false
  backups : Bool := false
  records : Bool := false
  views : Bool := false
  /-- Whether the workspace can tell the absolute path of a file. -/
  resolvesPaths : Bool := true

namespace Session

def ask (request : Request) : Session (Reply request) := Dialogue.question request

def fileExists (path : Text) : Attempt Bool := ExceptT.mk (ask (.fileExists path))

def readText (path : Text) : Attempt Text := ExceptT.mk (ask (.readText path))

def writeText (path content : Text) : Attempt Unit := ExceptT.mk (ask (.writeText path content))

def makeFolder (path : Text) : Attempt Unit := ExceptT.mk (ask (.makeFolder path))

def findByName (name : Text) : Attempt (List Text) := ExceptT.mk (ask (.findByName name))

def absolutePath (path : Text) : Attempt Text := ExceptT.mk (ask (.absolutePath path))

def confirm (prompt : Text) (options : List Text) : Attempt (Option Text) :=
  ExceptT.mk (ask (.confirm prompt options))

def backup (path content : Text) : Attempt (Option Text) := ExceptT.mk (ask (.backup path content))

def record (entry : HistoryEntry) : Attempt Bool := ExceptT.mk (ask (.record entry))

def view (path : Text) : Attempt Unit := ExceptT.mk (ask (.view path))

def clock : Session Instant := ask .clock

def tell (message : Text) : Session Unit := ask (.tell message)

def detail (message : Text) : Session Unit := ask (.detail message)

def log (level : Level) (channel : Channel) (message : Text) : Session Unit :=
  ask (.log ⟨level, channel, message⟩)

/-- Goes through a list from left to right. -/
def each {α : Type} (act : α → Session Unit) : List α → Session Unit
  | [] => pure ()
  | a :: rest => do act a; each act rest

end Session

end CodeGraft
