import CodeGraft.History.Entry
import CodeGraft.Json.Reader
import CodeGraft.Json.Writer
import CodeGraft.Machine.Call

/-!
# The history ledger

The ledger (`JsonHistoryStore`) keeps the entries of the history, the newest first, in one file. It
is read once, and written after each change. An entry whose backup does not exist is left out when
the ledger is read.
-/

namespace CodeGraft

open Text

def defaultBackupFolder : Text := "~/.chat-code-apply/backup"

def historyFileName : Text := "history.json"

structure Ledger where
  path : Text
  /-- How many entries are kept; from a number below zero, how many are dropped at the end. -/
  limit : Int
  /-- The entries, once the file has been read. -/
  known : Option (List HistoryEntry) := none

namespace Ledger

/-- Something done with a ledger. What it has learned is kept when a fault ends it. -/
abbrev Work := ExceptT Fault (StateT Ledger Routine)

def defaultPath : Text := Path.join defaultBackupFolder historyFileName

def atPath (path : Text) (limit : Int) : Errand Ledger := do
  let path := if path.isEmpty then defaultPath else path
  return { path := ← Machine.expandHome path, limit }

/-- Whether something stands where a value leads. A text is a path, and a number that of an open
file, of which there are three. -/
def backupStands : Json.Value → Errand Bool
  | .text path => Machine.holds path
  | .bool _ => return true
  | .number (.integer n) =>
    if 2147483648 ≤ n then throw (.notPath .above)
    else if n < -2147483648 then throw (.notPath .below)
    else return 0 ≤ n && n < 3
  | value => throw (.notPath (.kind value.kindName))

/-- The entries among the items of a ledger: those whose backup exists. -/
def standing : List Json.Value → Errand (List HistoryEntry)
  | [] => return []
  | .object fields :: rest => do
    let entry := HistoryEntry.ofValue (.object fields)
    let stands ← if entry.backupRef.isFilled then backupStands entry.backupRef else pure false
    let entries ← standing rest
    return if stands then entry :: entries else entries
  | _ :: rest => standing rest

/-- The value in a ledger's file. What cannot be read holds nothing, unless it is nested too deep. -/
def readValue (path : Text) : Errand Json.Value := do
  let unreadable : Errand Json.Value := do
    Machine.log .error .history (glue ["Error loading history from ", path])
    return .list []
  match ← ExceptT.lift (Machine.readText path).run with
  | .error _ => unreadable
  | .ok text =>
    match Json.Value.parse (← Machine.nesting).1 text with
    | .ok value => return value
    | .error .malformed => unreadable
    | .error (.tooDeep kind) => throw (.nestedTooDeep kind)

def standingIn (path : Text) : Errand (List HistoryEntry) := do
  match ← if ← Machine.holds path then readValue path else pure (.list []) with
  | .list items => standing items
  | _ => return []

/-- Reads the ledger's file. -/
def load : Work (List HistoryEntry) := do
  match ← (standingIn (← get).path).run with
  | .error e => throw e
  | .ok entries =>
    modify fun l => { l with known := some entries }
    return entries

def entries : Work (List HistoryEntry) := do
  match (← get).known with
  | some known => return known
  | none => load

def latest : Work (Option HistoryEntry) := do
  return (← entries).head?

def render (entries : List HistoryEntry) : Text :=
  (Json.Value.list (entries.map HistoryEntry.toValue)).render

def write (path : Text) (entries : List HistoryEntry) : Errand Unit := do
  let folder := Path.dirname path
  let act : Errand Unit := do
    Machine.makeFolders (if folder.isEmpty then ['.'] else folder)
    Machine.writeText path (render entries)
  act.adapt fun e =>
    match e with
    | .disk e => .historyNotSaved path e.message
    | e => e

def save : Work Unit := do
  let l ← get
  match ← (write l.path (l.known.getD [])).run with
  | .ok () => return
  | .error e => throw e

def kept (limit : Int) (entries : List HistoryEntry) : List HistoryEntry :=
  entries.take (if 0 ≤ limit then limit.toNat else entries.length - limit.natAbs)

theorem length_kept (limit : Int) (entries : List HistoryEntry) (h : 0 ≤ limit) :
    (kept limit entries).length = min limit.toNat entries.length := by
  simp [kept, h]

/-- Puts an entry in front of the others, with the current time unless it has one. The result says
whether it was recorded, and how the entry reads then. -/
def record (entry : HistoryEntry) : Work (Bool × HistoryEntry) := do
  if !entry.filePath.isFilled || !entry.backupRef.isFilled then return (false, entry)
  let entry ← if entry.timestamp.isFilled then pure entry
    else do
      let now ← Machine.now
      pure { entry with timestamp := .text now.extended }
  let others ← entries
  modify fun l => { l with known := some (kept l.limit (entry :: others)) }
  tryCatch (do save; return (true, entry)) fun e => do
    match e with
    | .historyNotSaved _ _ =>
      Machine.log .error .history e.message
      return (false, entry)
    | e => throw e

def clear : Work Unit := do
  modify fun l => { l with known := some [] }
  save

end Ledger

end CodeGraft
