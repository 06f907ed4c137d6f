import CodeGraft.Machine.Call
import CodeGraft.Pattern.Basic
import CodeGraft.Text.Integer

/-!
# Backup stores

A backup store (`DirectoryBackupStore`) keeps old contents of files in a folder, and no more of them
than its limit: when there are more, the oldest are removed. The list of backups is read from the
folder once, and kept from then on.
-/

namespace CodeGraft

open Text

namespace Backup

/-- The name of the backup of a file that follows `count` others of the same instant. -/
def name (path : Text) (taken : Instant) (count : Nat) : Text :=
  let number := if count = 0 then [] else '-' :: ofNat count
  .glue [Path.basename path, ".", taken.stamp, number, ".bak"]

def digits (count : Nat) : Pattern := .cat (List.replicate count (.one isDigit))

/-- What the name of a backup has behind the name of its file. -/
def tail : Pattern :=
  .cat [".", digits 4, "-", digits 2, "-", digits 2, "T", digits 2, "-", digits 2, "-", digits 2,
    "-", digits 6, "Z", .optional (.seq "-" (.oneOrMore (.one isDigit))), ".bak",
    .check fun _ rest => rest = [] || rest = ['\n']]

def fileName (ref : Text) : Text :=
  let base := Path.basename ref
  match tail.search? (Cursor.start base) with
  | none => base
  | some found => base.take found.start.offset ++ found.stop.rest

end Backup

structure BackupStore where
  folder : Text
  /-- How many backups are kept, if that is known. -/
  limit : Option Int
  /-- The paths of the backups, the newest first, once the folder has been read. -/
  known : Option (List Text) := none

namespace BackupStore

/-- Something done with a store. What it has learned is kept when a fault ends it. -/
abbrev Work := ExceptT Fault (StateT BackupStore Routine)

def inFolder (folder : Text) (limit : Option Int) : Errand BackupStore := do
  return { folder := ← Machine.expandHome folder, limit }

/-- Whether a file is not newer than another; of two that are as old, by their names. -/
def notNewer (a b : Text × Instant) : Bool :=
  if a.2 = b.2 then !(b.1 < a.1) else a.2.le b.2

def newestFirst (folder : Text) (files : List (Text × Instant)) : List Text :=
  let backups := files.filter fun f => endsWith f.1 ".bak"
  (backups.mergeSort fun a b => notNewer b a).map fun f => Path.join folder f.1

def removeEach : List Text → Routine Unit
  | [] => return
  | path :: rest => do
    match ← (Machine.remove path).run with
    | .ok () => pure ()
    | .error e =>
      Machine.log .warning .backup
        (glue ["Failed to remove old backup ", path, ": ", e.message])
    removeEach rest

/-- Keeps the newest of the backups, as many as the limit says, and removes the others from the
oldest on (`_trim`). No list is short enough for a limit below zero, and none can be held against an
unknown one. -/
def trim (backups : List Text) : Work Unit := do
  match (← get).limit with
  | none =>
    modify fun s => { s with known := some backups }
    throw (.incomparable ">")
  | some limit =>
    modify fun s => { s with known := some (backups.take limit.toNat) }
    removeEach (backups.drop limit.toNat).reverse
    if limit < 0 then throw .nothingLeft

def backups : Work (List Text) := do
  let s ← get
  match s.known with
  | some known => return known
  | none =>
    trim (newestFirst s.folder (← Machine.files s.folder))
    return ((← get).known).getD []

def firstFree : Text → List Text → Routine Text
  | path, [] => return path
  | path, next :: rest => do
    if ← Machine.holds path then firstFree next rest else return path

def create (folder path content : Text) : Errand Text := do
  Machine.makeFolders folder
  let taken ← Machine.now
  let place (count : Nat) := Path.join folder (Backup.name path taken count)
  let others := (List.range (← Machine.names folder).length).map fun n => place (n + 1)
  let target ← firstFree (place 0) others
  Machine.writeText target content
  return target

/-- Takes a backup of a content of the file at a path, and gives the backup's path; there is none if
the disk refuses. -/
def backup (path content : Text) : Work (Option Text) := do
  let known ← backups
  match ← (create (← get).folder path content).run with
  | .error (.disk e) =>
    Machine.log .error .backup (glue ["Failed to create backup for ", path, ": ", e.message])
    return none
  | .error e => throw e
  | .ok target =>
    trim (target :: known)
    Machine.log .debug .backup (glue ["Backed up ", path, " to ", target])
    return some target

def latest : Work (Option Text) := do
  return (← backups).head?

end BackupStore

namespace Backup

def refused {α : Type} (rename : Text → Fault) (act : Errand α) : Errand α :=
  act.adapt fun e =>
    match e with
    | .disk e => rename e.message
    | e => e

def read (ref : Text) : Errand Text :=
  refused (Fault.backupUnreadable ref) (Machine.readText ref)

def restore (ref target : Text) : Errand Unit := do
  let content ← read ref
  refused (Fault.backupNotRestored ref target) (Machine.writeText target content)
  Machine.log .info .backup (glue ["Restored ", target, " from ", ref])

end Backup

end CodeGraft
