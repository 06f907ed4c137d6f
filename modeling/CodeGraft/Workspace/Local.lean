import CodeGraft.Workspace.Search

/-!
# Local workspaces

A local workspace is a folder of the machine. Its files are named by paths relative to the folder or
by absolute ones; unless it is open, no path may lead out of it (`absolute_path`).
-/

namespace CodeGraft

open Text

structure LocalWorkspace where
  /-- The absolute path of the folder. -/
  base : Text
  /-- Whether paths may lead out of the folder. -/
  isOpen : Bool := false

namespace LocalWorkspace

def atFolder (folder : Text) (isOpen : Bool) : Errand LocalWorkspace := do
  if Path.holdsNull folder then throw .nullInPath
  return ⟨Path.real (← Machine.currentFolder) folder, isOpen⟩

def absolutePath (w : LocalWorkspace) (path : Text) : Except Fault Text :=
  let absolute := Path.absolute w.base path
  if w.isOpen || Path.isWithin w.base absolute then .ok absolute else .error (.outside path w.base)

def withPath {α : Type} (w : LocalWorkspace) (path : Text) (act : Text → Errand α) : Errand α :=
  match w.absolutePath path with
  | .ok absolute => act absolute
  | .error e => throw e

def fileExists (w : LocalWorkspace) (path : Text) : Errand Bool :=
  w.withPath path fun absolute => Machine.isFile absolute

def readText (w : LocalWorkspace) (path : Text) : Errand Text := w.withPath path Machine.readText

def writeText (w : LocalWorkspace) (path content : Text) : Errand Unit :=
  w.withPath path fun absolute => Machine.writeText absolute content

def makeFolder (w : LocalWorkspace) (path : Text) : Errand Unit :=
  w.withPath path Machine.makeFolders

/-- The relative paths of the files of a name, without those that are ignored (`find_by_name`). -/
def findByName (w : LocalWorkspace) (name : Text) : Errand (List Text) := do
  filesNamed w.base name (← ignoreTestAt w.base)

end LocalWorkspace

end CodeGraft
