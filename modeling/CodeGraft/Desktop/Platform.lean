import CodeGraft.Dialogue
import CodeGraft.Path
import CodeGraft.Report
import CodeGraft.Text.LineBreak
import CodeGraft.Text.Lowercase
import CodeGraft.Text.Utf8

/-!
# The desktop

The clipboard is read by the first tool that the platform has and that succeeds, and a file is
opened by the platform's launcher. Which tools there are is found out by looking for executable
files in the folders of the search path.
-/

namespace CodeGraft

open Text

inductive PlatformKind where
  | linux
  | mac
  | windows
  deriving DecidableEq, Repr

structure Platform where
  kind : PlatformKind
  /-- The folders that tools are looked for in, in one text. -/
  searchPath : Text := []
  /-- The endings of executable files, in one text. -/
  endings : Text := ".EXE;.BAT;.CMD"

inductive DesktopCall where
  /-- Whether an executable file stands at a path. -/
  | isExecutable (path : Text)
  /-- Runs a tool to its end; the reply is its status and its output, or why it did not start. -/
  | capture (command : List Text)
  /-- Starts a tool. -/
  | launch (command : List Text)
  /-- Hands a file to the platform. -/
  | open (path : Text)
  | log (entry : LogRecord)

abbrev DesktopAnswer : DesktopCall → Type
  | .isExecutable _ => Bool
  | .capture _ => Except Text (Nat × Bytes)
  | .launch _ => Except Text Unit
  | .open _ => Except Text Unit
  | .log _ => Unit

abbrev DesktopRoutine := Dialogue DesktopCall DesktopAnswer

namespace Platform

def call (c : DesktopCall) : DesktopRoutine (DesktopAnswer c) := Dialogue.question c

def folders (p : Platform) : List Text :=
  splitOn (if p.kind = .windows then ';' else ':') p.searchPath

def nameEndings (p : Platform) : List Text :=
  if p.kind = .windows then ((splitOn ';' p.endings).filter (· ≠ [])).map lower else []

/-- The paths at which a tool can stand, in the order in which they are looked at. -/
def candidates (p : Platform) (tool : Text) : List Text :=
  p.folders.flatMap fun folder =>
    let path := Path.join folder tool
    path :: p.nameEndings.map (path ++ ·)

def anyExecutable : List Text → DesktopRoutine Bool
  | [] => return false
  | path :: rest => do
    if ← call (.isExecutable path) then return true else anyExecutable rest

def hasTool (p : Platform) (tool : Text) : DesktopRoutine Bool := anyExecutable (p.candidates tool)

def clipboardCommands : List (List Text) :=
  [["pbpaste"], ["powershell", "-NoProfile", "-Command", "Get-Clipboard -Raw"],
    ["wl-paste", "--no-newline"], ["xclip", "-selection", "clipboard", "-o"],
    ["xsel", "--clipboard", "--output"]]

def availableCommands (p : Platform) : List (List Text) → DesktopRoutine (List (List Text))
  | [] => return []
  | command :: rest => do
    let here ← p.hasTool (command.headD [])
    let others ← p.availableCommands rest
    return if here then command :: others else others

def firstOutput : List (List Text) → DesktopRoutine Text
  | [] => return []
  | command :: rest => do
    match ← call (.capture command) with
    | .ok (0, output) => return dropPairedReturns (Utf8.decodeReplacing output)
    | .ok _ => firstOutput rest
    | .error reason =>
      let _ ← call (.log ⟨.debug, .desktop,
        glue ["Clipboard tool ", command.headD [], " failed: ", reason]⟩)
      firstOutput rest

/-- The text in the clipboard (`read_clipboard`); it is empty if no tool can read it. -/
def clipboard (p : Platform) : DesktopRoutine Text := do
  firstOutput (← p.availableCommands clipboardCommands)

/-- Tries to open a file; the result says whether something was started. -/
def tryOpen (p : Platform) (path : Text) : ExceptT Text DesktopRoutine Bool := do
  match p.kind with
  | .mac =>
    ExceptT.mk (call (.launch ["open", path]))
    return true
  | .windows =>
    ExceptT.mk (call (.open path))
    return true
  | .linux =>
    if ← p.hasTool "xdg-open" then
      ExceptT.mk (call (.launch ["xdg-open", path]))
      return true
    else return false

/-- Opens a file in the platform's viewer (`open_in_viewer`); the result says whether something was
started. -/
def view (p : Platform) (path : Text) : DesktopRoutine Bool := do
  match ← (p.tryOpen path).run with
  | .ok started => return started
  | .error reason =>
    let _ ← call (.log ⟨.warning, .desktop, glue ["Failed to open ", path, ": ", reason]⟩)
    return false

end Platform

end CodeGraft
