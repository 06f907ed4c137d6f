import CodeGraft.Machine.Call

/-!
# Searching a folder

A search for files of a name (`find_files_named`) looks into all folders but those that are ignored.
Which these are the machine tells from the lines of the nearest ignore file (`load_ignore_spec`):
that of the folder itself or of one above it.
-/

namespace CodeGraft

open Text

def ignoreFileName : Text := ".gitignore"

/-- The lines that stand in front of those of every ignore file (`DEFAULT_IGNORES`). -/
def defaultIgnores : List Text := List.map String.toList [".git/", "node_modules/"]

/-- The lines of the first ignore file in one of the folders. A file that cannot be read ends the
search and has no lines. -/
def ignoreLines : (folders : List Text) → Routine (List Text)
  | [] => return []
  | folder :: rest => do
    let path := Path.join folder ignoreFileName
    if ← Machine.holds path then
      match ← (Machine.read path).run with
      | .ok content => return bareLines (unifyNewlines (Utf8.decodeDropping content))
      | .error e =>
        Machine.log .debug .ignore (glue ["Could not read ", path, ": ", e.message])
        return []
    else ignoreLines rest

def ignoreTestAt (path : Text) : Errand (Text → Bool) := do
  let base := Path.absolute (← Machine.currentFolder) path
  let folder := if ← Machine.isFile base then Path.dirname base else base
  let lines ← ignoreLines (Path.upward folder)
  tryCatch (Machine.ignoreTest (defaultIgnores ++ lines)) fun _ => do
    Machine.log .warning .ignore "Ignoring malformed .gitignore patterns"
    Machine.ignoreTest defaultIgnores

def foldersAlong (way : List Text) : List (List Text) :=
  (List.range' 1 (way.length - 1)).map way.take

/-- Whether a search looks into a folder. Without a test only the folder of a version store is left
out. -/
def isSearched (ignores : Option (Text → Bool)) (folder : List Text) : Bool :=
  match ignores with
  | some ignores => !ignores (joinWith ['/'] folder ++ ['/'])
  | none => folder.getLast? ≠ some ".git".toList

def isFound (ignores : Option (Text → Bool)) (file : List Text) : Bool :=
  (foldersAlong file).all (isSearched ignores) && !ignores.any (· (joinWith ['/'] file))

def filesNamed (folder name : Text) (ignores : Option (Text → Bool)) : Errand (List Text) := do
  let all ← Machine.below folder
  let found := all.filter fun (way, isFile) =>
    isFile && way.getLast? = some name && isFound ignores way
  return (found.map fun (way, _) => joinWith ['/'] way).mergeSort fun a b => !(b < a)

end CodeGraft
