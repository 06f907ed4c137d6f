import CodeGraft.Apply.Request
import CodeGraft.Path

/-!
# Rehearsals

A rehearsal is a host for sessions that keeps the workspace in memory and lets everybody else follow
a script: the user, the stores and the viewer reply with what is written for them, in turn. Any
call to the workspace can be made to fail, and then it has no effect.
-/

namespace CodeGraft

/-- The calls to a workspace that can be made to fail. -/
inductive WorkspaceCall where
  | fileExists
  | readText
  | writeText
  | makeFolder
  | findByName
  | absolutePath
  deriving DecidableEq, Repr

inductive WorkspaceKind where
  /-- It can do everything. -/
  | full
  /-- It keeps files, but finds none by name, and paths stay as they are. -/
  | bare
  /-- It offers nothing; no file is found by name, and paths stay as they are. -/
  | unsupported
  deriving DecidableEq, Repr

inductive Script (α : Type) where
  | replies (rest : List (Except Fault α))
  | unsupported

namespace Script

def next {α : Type} (last : α) : Script α → Except Fault α × Script α
  | unsupported => (.error .notOffered, unsupported)
  | replies [] => (.ok last, replies [])
  | replies (r :: rest) => (r, replies rest)

end Script

structure Rehearsal where
  kind : WorkspaceKind := .full
  /-- The contents of the files by path; a path occurs once. -/
  files : List (Text × Text) := []
  /-- The calls that fail, with the path or name that they fail for. -/
  failures : List ((WorkspaceCall × Text) × Fault) := []
  answers : Script (Option Text) := .replies []
  backups : Script (Option Text) := .replies []
  records : Script Bool := .replies []
  /-- The paths that the viewer fails for. -/
  viewFailures : List (Text × Fault) := []
  now : Instant

namespace Rehearsal

def content? (r : Rehearsal) (path : Text) : Option Text := r.files.lookup path

def put (r : Rehearsal) (path content : Text) : Rehearsal :=
  { r with files := (path, content) :: r.files.filter (·.1 ≠ path) }

theorem content?_put_self (r : Rehearsal) (path content : Text) :
    (r.put path content).content? path = some content := by
  simp [put, content?]

theorem content?_put_of_ne (r : Rehearsal) {path other : Text} (content : Text)
    (h : other ≠ path) : (r.put path content).content? other = r.content? other := by
  have hne : (other == path) = false := by simpa using h
  have hput : (r.put path content).content? other = (r.files.filter (·.1 ≠ path)).lookup other := by
    rw [content?, put, List.lookup_cons, hne]
  rw [hput, content?]
  induction r.files with
  | nil => rfl
  | cons f files ih =>
    by_cases hf : f.1 = path
    · have ho : (other == f.1) = false := by rw [hf]; exact hne
      rw [List.filter_cons_of_neg (by simpa using hf), List.lookup_cons, ho]
      exact ih
    · rw [List.filter_cons_of_pos (by simpa using hf), List.lookup_cons, List.lookup_cons, ih]

def call {α : Type} (r : Rehearsal) (c : WorkspaceCall) (path : Text) (reply : Except Fault α) :
    Except Fault α :=
  if r.kind = .unsupported then .error .notOffered
  else match r.failures.lookup (c, path) with
    | some fault => .error fault
    | none => reply

def callWithDefault {α : Type} (r : Rehearsal) (c : WorkspaceCall) (path : Text) (given reply : α) :
    Except Fault α :=
  if r.kind = .full then r.call c path (.ok reply) else .ok given

def filesNamed (r : Rehearsal) (name : Text) : List Text :=
  ((r.files.map (·.1)).filter (Path.basename · = name)).mergeSort fun a b => !(b < a)

def host : Dialogue.Host Reply Rehearsal
  | .fileExists path, r => (r.call .fileExists path (.ok (r.content? path).isSome), r)
  | .readText path, r =>
    (r.call .readText path (((r.content? path).map .ok).getD (.error (.reported .missing path))), r)
  | .writeText path content, r =>
    match r.call .writeText path (.ok ()) with
    | .ok () => (.ok (), r.put path content)
    | .error e => (.error e, r)
  | .makeFolder path, r => (r.call .makeFolder path (.ok ()), r)
  | .findByName name, r => (r.callWithDefault .findByName name [] (r.filesNamed name), r)
  | .absolutePath path, r =>
    (r.callWithDefault .absolutePath path path ("/ws/".toList ++ path), r)
  | .confirm _ _, r =>
    let (reply, rest) := r.answers.next none
    (reply, { r with answers := rest })
  | .backup _ _, r =>
    let (reply, rest) := r.backups.next none
    (reply, { r with backups := rest })
  | .record _, r =>
    let (reply, rest) := r.records.next true
    (reply, { r with records := rest })
  | .view path, r =>
    (match r.viewFailures.lookup path with
      | some fault => .error fault
      | none => .ok (), r)
  | .clock, r => (r.now, r)
  | .tell _, r => ((), r)
  | .detail _, r => ((), r)
  | .log _, r => ((), r)

end Rehearsal

end CodeGraft
