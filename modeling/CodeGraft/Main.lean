import CodeGraft.Command.Run
import CodeGraft.Desktop.Platform
import CodeGraft.Ignore.Rules

/-!
# The program

The command line program answers the calls of a command from the machine that it runs on.
-/

namespace CodeGraft.Main

open Text

def faultOf (path : Text) (isFolder : Bool) (e : IO.Error) : Fault :=
  match e with
  | .noFileOrDirectory _ _ _ => .disk ⟨.missing, path⟩
  | .alreadyExists _ _ _ => .disk ⟨.taken, path⟩
  | .inappropriateType _ _ _ => .disk ⟨if isFolder then .isFolder else .notFolder, path⟩
  | .invalidArgument _ code details =>
    if code = 36 then .disk ⟨.tooLong, path⟩ else .reported .system details.toList
  | e => .reported .system (toString e).toList

def isFolder (path : String) : IO Bool := do
  try return (← (← IO.currentDir) / path |>.metadata).type == .dir
  catch _ => return false

def holds (path : String) : IO Bool := do
  try
    let _ ← ((← IO.currentDir) / path).metadata
    return true
  catch _ => return false

def atPath {α : Type} (path : Text) (act : String → IO α) : IO (Except Fault α) := do
  if Path.holdsNull path then return .error .nullInPath
  let name := String.ofList path
  if name.isEmpty then return .error (.disk ⟨.missing, path⟩)
  try return .ok (← act name)
  catch e => return .error (faultOf path (← isFolder name) e)

def instantOf (t : IO.FS.SystemTime) : Instant :=
  Instant.ofSeconds t.sec.toNat (t.nsec.toNat / 1000)

/-- The current time, read off a new file. -/
def now : IO Instant := do
  let (_, path) ← IO.FS.createTempFile
  let data ← path.metadata
  IO.FS.removeFile path
  return instantOf data.modified

/-- What is known about an entry of a folder, if it can be found out. -/
def entryData? (entry : IO.FS.DirEntry) : IO (Option (String × IO.FS.Metadata)) := do
  try return some (entry.fileName, ← entry.path.metadata)
  catch _ => return none

def entries (folder : String) : IO (List (String × IO.FS.Metadata)) := do
  try
    let all ← ((← IO.currentDir) / folder).readDir
    all.toList.filterMapM entryData?
  catch _ => return []

partial def below (folder : String) (way : List Text) : IO (List (List Text × Bool)) := do
  let parts ← (← entries folder).mapM fun (name, data) => do
    let here := way ++ [name.toList]
    let inner ← if data.type == .dir then below (folder ++ "/" ++ name) here else pure []
    return (here, data.type != .dir) :: inner
  return parts.flatten

partial def readAll (input : IO.FS.Stream) : IO ByteArray := do
  let bytes ← input.read 65536
  if bytes.isEmpty then return bytes
  return bytes ++ (← readAll input)

def readLine : IO (Option Text) := do
  let line ← (← IO.getStdin).getLine
  if line.isEmpty then return none
  let text := unifyNewlines line.toList
  return some (if text.getLast? = some '\n' then text.dropLast else text)

/-- The platform of the machine. No tools can be started, so only its name matters. -/
def platform : Platform := { kind := .linux }

def desktopAnswer : (c : DesktopCall) → IO (DesktopAnswer c)
  | .isExecutable _ => return false
  | .capture _ => return .error "no tool can be started"
  | .launch _ => return .error "no tool can be started"
  | .open _ => return .error "no tool can be started"
  | .log _ => return ()

def listedHome? (user : Text) : IO (Option Text) := do
  try
    let lines ← IO.FS.lines "/etc/passwd"
    return lines.toList.findSome? fun line =>
      match splitOn ':' line.toList with
      | [name, _, _, _, _, home, _] => if name = user then some home else none
      | _ => none
  catch _ => return none

def homeOf? (user : Text) : IO (Option Text) := do
  if user.isEmpty then return ((← IO.getEnv "HOME").getD "/").toList
  listedHome? user

def showRecord (verbose : Bool) (entry : LogRecord) : IO Unit := do
  if verbose then IO.eprintln (String.ofList entry.line)
  else if Level.warning.severity ≤ entry.level.severity then
    IO.eprintln (String.ofList entry.message)

def answer (verbose : Bool) : (c : Call) → IO (Answer c)
  | .holds path => if path.isEmpty then return false else holds (String.ofList path)
  | .isFile path => do
    if path.isEmpty then return false
    let name := String.ofList path
    return (← holds name) && !(← isFolder name)
  | .isFolder path => if path.isEmpty then return false else isFolder (String.ofList path)
  | .read path => atPath path fun name => do return (← IO.FS.readBinFile name).toList
  | .write path content => atPath path fun name => IO.FS.writeBinFile name ⟨content.toArray⟩
  | .makeFolder path => atPath path fun name => IO.FS.createDir name
  | .remove path => atPath path fun name => IO.FS.removeFile name
  | .files folder => do
    let files := (← entries (String.ofList folder)).filter fun e => e.2.type == .file
    return files.map fun (name, data) => (name.toList, instantOf data.modified)
  | .names folder => do return (← entries (String.ofList folder)).map (·.1.toList)
  | .below folder => atPath folder fun name => below name []
  | .currentFolder => do return (← IO.currentDir).toString.toList
  | .homeOf user => homeOf? user
  | .ignoreTest lines => return globTest lines
  | .nesting => return usualNesting
  | .now => now
  | .print line => IO.println (String.ofList line)
  | .complain line => IO.eprintln (String.ofList line)
  | .readLine prompt => do
    IO.print (String.ofList prompt)
    (← IO.getStdout).flush
    return .ok (← readLine)
  | .readInput => do return Machine.textOf (← readAll (← IO.getStdin)).toList
  | .clipboard => platform.clipboard.hold desktopAnswer
  | .view path => do
    let _ ← (platform.view path).hold desktopAnswer
  | .log entry => showRecord verbose entry

end CodeGraft.Main

def main (args : List String) : IO UInt32 := do
  let line := args.map String.toList
  let answer := CodeGraft.Main.answer (CodeGraft.Command.wantsDetails line)
  match ← (CodeGraft.Command.run line).run.hold answer with
  | .ok status => return status.toUInt32
  | .error fault =>
    IO.eprintln (String.ofList fault.message)
    return 1
