import CodeGraft.Apply.Request

/-!
# Events of a session

What someone who watches a session sees of its exchanges. Changes of the workspace are seen when
they have succeeded; all other requests are seen as they are made. How much is seen of what the
session tells depends on the watcher.
-/

namespace CodeGraft

/-- Something that is seen of a session. -/
inductive Event where
  | said (message : Text)
  | asked (prompt : Text) (options : List Text)
  | backedUp (path content : Text)
  | recorded (entry : HistoryEntry)
  | folderMade (path : Text)
  | fileWritten (path content : Text)
  | viewed (path : Text)
  | logged (line : Text)
  | informed (message : Text)
  | detailed (message : Text)

/-- How much a watcher sees of what is told. -/
structure Watcher where
  /-- Whether the user's messages are seen. -/
  hears : Bool := true
  /-- Whether the session is followed closely. -/
  follows : Bool := false
  /-- The least level of the log records that are seen. -/
  level : Level := .warning

def Watcher.sees (w : Watcher) : Dialogue.Exchange Reply → List Event
  | ⟨.tell message, _⟩ =>
    (if w.hears then [.said message] else []) ++ (if w.follows then [.informed message] else [])
  | ⟨.detail message, _⟩ => if w.follows then [.detailed message] else []
  | ⟨.log entry, _⟩ =>
    if w.level.severity ≤ entry.level.severity then [.logged entry.line] else []
  | ⟨.confirm prompt options, _⟩ => [.asked prompt options]
  | ⟨.backup _ _, .error .notOffered⟩ => []
  | ⟨.backup path content, _⟩ => [.backedUp path content]
  | ⟨.record _, .error .notOffered⟩ => []
  | ⟨.record entry, _⟩ => [.recorded entry]
  | ⟨.makeFolder path, .ok ()⟩ => [.folderMade path]
  | ⟨.writeText path content, .ok ()⟩ => [.fileWritten path content]
  | ⟨.view path, _⟩ => [.viewed path]
  | _ => []

def Watcher.events (w : Watcher) (exchanges : List (Dialogue.Exchange Reply)) : List Event :=
  exchanges.flatMap w.sees

end CodeGraft
