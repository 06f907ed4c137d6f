import CodeGraft.Dialogue
import CodeGraft.Fault
import CodeGraft.Path
import CodeGraft.Report
import CodeGraft.Text.LineBreak
import CodeGraft.Time

/-!
# Calls of the machine

A routine does nothing to the machine that it runs on. It asks for files and folders by their paths,
for the clock, and for what the user types; and it prints and logs. What the machine brings with it,
as the homes of its users and its reading of ignore files, is asked for in the same way. An errand is
a routine that a fault can end.
-/

namespace CodeGraft

open Text

/-- How deep a value may be nested. A machine on which programs run at all can nest two levels. -/
abbrev NestingLimit := { levels : Nat // 2 ≤ levels }

def usualNesting : NestingLimit := ⟨980, by decide⟩

inductive Call where
  /-- Whether something stands at a path. -/
  | holds (path : Text)
  | isFile (path : Text)
  | isFolder (path : Text)
  | read (path : Text)
  | write (path : Text) (content : Bytes)
  /-- Makes a folder in one that exists. -/
  | makeFolder (path : Text)
  /-- Removes a file. -/
  | remove (path : Text)
  /-- The names of the files in a folder, each with the instant of its last change. -/
  | files (folder : Text)
  /-- The names of all that a folder holds. -/
  | names (folder : Text)
  /-- The ways to what is below a folder, each with whether it leads to a file. -/
  | below (folder : Text)
  /-- The folder that relative paths start from. -/
  | currentFolder
  /-- The home of the user of a name, if there is one; without a name, of the user who calls. -/
  | homeOf (user : Text)
  /-- A test that says which paths the lines of an ignore file leave out. How lines are read is not
  said here. -/
  | ignoreTest (lines : List Text)
  /-- How deep a value may be nested that is read. -/
  | nesting
  | now
  /-- Prints a line. -/
  | print (line : Text)
  /-- Prints a line where errors go. -/
  | complain (line : Text)
  /-- Prints a prompt and reads a line; there is none at the end of the input. -/
  | readLine (prompt : Text)
  /-- Reads the input to its end. -/
  | readInput
  | clipboard
  | view (path : Text)
  | log (entry : LogRecord)

abbrev Answer : Call → Type
  | .holds _ => Bool
  | .isFile _ => Bool
  | .isFolder _ => Bool
  | .read _ => Except Fault Bytes
  | .write _ _ => Except Fault Unit
  | .makeFolder _ => Except Fault Unit
  | .remove _ => Except Fault Unit
  | .files _ => List (Text × Instant)
  | .names _ => List Text
  | .below _ => Except Fault (List (List Text × Bool))
  | .currentFolder => Text
  | .homeOf _ => Option Text
  | .ignoreTest _ => Except Fault (Text → Bool)
  | .nesting => NestingLimit
  | .now => Instant
  | .print _ => Unit
  | .complain _ => Unit
  | .readLine _ => Except Fault (Option Text)
  | .readInput => Except Fault Text
  | .clipboard => Text
  | .view _ => Unit
  | .log _ => Unit

abbrev Routine := Dialogue Call Answer

abbrev Errand := ExceptT Fault Routine

namespace Machine

def call (c : Call) : Routine (Answer c) := Dialogue.question c

def holds (path : Text) : Routine Bool := call (.holds path)

def isFile (path : Text) : Routine Bool := call (.isFile path)

def isFolder (path : Text) : Routine Bool := call (.isFolder path)

def read (path : Text) : Errand Bytes := ExceptT.mk (call (.read path))

def write (path : Text) (content : Bytes) : Errand Unit := ExceptT.mk (call (.write path content))

def makeFolder (path : Text) : Errand Unit := ExceptT.mk (call (.makeFolder path))

def remove (path : Text) : Errand Unit := ExceptT.mk (call (.remove path))

def files (folder : Text) : Routine (List (Text × Instant)) := call (.files folder)

def names (folder : Text) : Routine (List Text) := call (.names folder)

def below (folder : Text) : Errand (List (List Text × Bool)) := ExceptT.mk (call (.below folder))

def currentFolder : Routine Text := call .currentFolder

def homeOf (user : Text) : Routine (Option Text) := call (.homeOf user)

def ignoreTest (lines : List Text) : Errand (Text → Bool) := ExceptT.mk (call (.ignoreTest lines))

def nesting : Routine NestingLimit := call .nesting

def now : Routine Instant := call .now

def print (line : Text) : Routine Unit := call (.print line)

def complain (line : Text) : Routine Unit := call (.complain line)

def readLine (prompt : Text) : Errand (Option Text) := ExceptT.mk (call (.readLine prompt))

def readInput : Errand Text := ExceptT.mk (call .readInput)

def clipboard : Routine Text := call .clipboard

def view (path : Text) : Routine Unit := call (.view path)

def log (level : Level) (channel : Channel) (message : Text) : Routine Unit :=
  call (.log ⟨level, channel, message⟩)

/-- A path with a home in place of a leading tilde and the name behind it, unless nobody has that
name. -/
def expandHome (path : Text) : Errand Text :=
  match Path.tildeName? path with
  | none => return path
  | some user => do
    if Path.holdsNull user then throw .nullInPath
    match ← homeOf user with
    | none => return path
    | some home => return Path.putHome home path

/-- The text of a file's content: strict decoding, with line feeds only. -/
def textOf (content : Bytes) : Except Fault Text :=
  match Utf8.decode content with
  | .ok text => .ok (unifyNewlines text)
  | .error e => .error (.undecodable e)

def readText (path : Text) : Errand Text := do
  match textOf (← read path) with
  | .ok text => return text
  | .error e => throw e

def writeText (path text : Text) : Errand Unit := write path (Utf8.encode text)

def makeLastFolder (path : Text) : Errand Unit :=
  tryCatch (makeFolder path) fun e => do
    match e with
    | .disk _ => if !(← isFolder path) then throw e
    | _ => throw e

def makeFoldersUpTo : (bound : Nat) → Text → Errand Unit
  | 0, _ => pure ()
  | bound + 1, path => do
    let (parent, name) := Path.parentAndName path
    if parent.isEmpty || name.isEmpty then makeLastFolder path
    else if ← holds parent then makeLastFolder path
    else
      tryCatch (makeFoldersUpTo bound parent) fun e =>
        match e with
        | .disk ⟨.taken, _⟩ => pure ()
        | _ => throw e
      if name ≠ ['.'] then makeLastFolder path

/-- Makes the folders of a path that are missing. The parent's path is shorter, so the length of a
path bounds their number. No other bound is set to it here, though a machine can have one. -/
def makeFolders (path : Text) : Errand Unit := makeFoldersUpTo (path.length + 1) path

end Machine

end CodeGraft
