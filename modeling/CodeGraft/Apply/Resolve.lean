import CodeGraft.Apply.Request
import CodeGraft.Path
import CodeGraft.Text.Blank

/-!
# From path hints to paths

The hint above a code block becomes a path of the workspace (`resolve_target`). An absolute hint
stands for itself. A relative one is put under the save folder if there is one; if not, a bare file
name that the workspace does not hold at its top is looked up (`resolve_filename`), and a unique
match takes its place.
-/

namespace CodeGraft

open Text

/-- What a user can choose about a batch (`ApplyOptions`). -/
structure Settings where
  /-- A folder in the workspace that relative paths are put under; none if it is empty. -/
  saveFolder : Text := []
  /-- Whether a question about a change shows the difference. -/
  diffPreview : Bool := true
  /-- Whether new files are asked about too. -/
  confirmNew : Bool := false
  /-- Whether files are backed up before they are overwritten. -/
  backups : Bool := true
  /-- How many files are opened at most. -/
  maxOpen : Int := 5
  /-- Whether nothing is written. -/
  dryRun : Bool := false
  /-- Whether callables of new names are inserted. -/
  insertNew : Bool := false

/-- A path and what is to be told about how it was found. -/
structure Resolved where
  path : Text
  messages : List Text := []

def isBareName (path : Text) : Bool :=
  !path.isEmpty && !path.contains '/' && !path.contains '\\'

def resolveName (path : Text) : Attempt Resolved := do
  if !isBareName path then return ⟨path, []⟩
  if ← Session.fileExists path then return ⟨path, []⟩
  let searching := glue ["  - File '", path, "' not found at root. Searching workspace..."]
  match ← Session.findByName path with
  | [] => return ⟨path, [searching]⟩
  | [only] =>
    return ⟨only, [searching, glue ["  - Found unique match: '", only, "'. Updating path."]]⟩
  | several =>
    return ⟨path, [searching, glue ["  - WARNING: Found multiple files for '", path, "': ",
      quotedList several, ". Using original path due to ambiguity."]]⟩

/-- A hint without blanks around it and with slashes as separators. -/
def cleanHint (hint : Text) : Text := replaceChar '\\' '/' (trim hint)

def resolveTarget (settings : Settings) (hint : Text) : Attempt Text := do
  let path := cleanHint hint
  if Path.isAbsolute path then return path
  if !settings.saveFolder.isEmpty then
    return Path.normalize (Path.join (cleanHint settings.saveFolder) path)
  let resolved ← resolveName (Path.normalize path)
  Session.each Session.tell resolved.messages
  return resolved.path

end CodeGraft
