import CodeGraft.Apply.Outcome
import CodeGraft.Apply.Resolve
import CodeGraft.Diff.Unified
import CodeGraft.Edit.Plan
import CodeGraft.Fence.Block
import CodeGraft.Verdict

/-!
# Applying a batch of code blocks

The blocks are applied one after another (`apply_blocks`), so several blocks for one file build on
each other. A block for a file that exists (`_update_existing`) is a whole replacement or an edit of
a part, by its verdict; before the file is written the user is asked (`_confirm_overwrite`), and its
old content is backed up (`_backup`). A block that fails (`_apply_one`) is reported and does not
stop those behind it.
-/

namespace CodeGraft

open Text Session

/-- The answers to a question about a shown difference. -/
def diffOptions : List Text := ["Apply", "Cancel"]

def fileOptions : List Text := ["Yes", "No"]

def passRecords (index : Index) : List LogRecord :=
  index.passes.map fun (shape, count) =>
    ⟨.debug, .index, glue [shape.name, " pass: ", ofNat count, " span(s) indexed so far"]⟩

def unaddressedRecords (text : Text) : List LogRecord :=
  (unaddressed text).map fun u => ⟨.debug, .blocks, u.message⟩

def logAll (records : List LogRecord) : Session Unit := each (fun r => ask (.log r)) records

def logPasses (index : Index) : Session Unit := logAll (passRecords index)

structure Revision where
  content : Text
  /-- How the content was made. -/
  how : Text

/-- The content that a block gives to a file, without the telling (`_updated_content`). -/
def revise (settings : Settings) (code existing : Text) : Except EditError Revision :=
  match extentOf code with
  | .whole => .ok ⟨code, "replaced file"⟩
  | .part =>
    let plan := Plan.of existing code settings.insertNew
    match plan.apply existing with
    | .error e => .error e
    | .ok content =>
      .ok ⟨content, glue ["partial update (", plan.tier.name, ", ", ofNat plan.edits.length,
        " edit(s))"]⟩

/-- What is told and logged while a block's new content is made. -/
def tellRevision (settings : Settings) (code existing : Text) : Session Unit := do
  logPasses (Index.of code)
  let rule := decidingRule code
  detail (glue ["Classified block as ", rule.extent.name, " (rule: ", rule.name, ")"])
  match rule.extent with
  | .whole => pure ()
  | .part =>
    let plan := Plan.of existing code settings.insertNew
    each logPasses plan.indexes
    each (fun note => detail note.message) plan.notes

def changeQuestion (settings : Settings) (target existing content : Text) : Text × List Text :=
  if settings.diffPreview then
    let diff := Diff.unified Diff.defaultContext target existing content
    (glue ["Apply changes to ", Path.basename target, "?\n",
      if diff.isEmpty then "(no changes)\n" else diff], diffOptions)
  else (glue ["File \"", target, "\" already exists. Overwrite?"], fileOptions)

def agrees (question : Text × List Text) : Attempt Bool := do
  let answer ← confirm question.1 question.2
  return answer = question.2.head? && answer.isSome

def declined (target : Text) : Attempt BlockResult := do
  tell (glue ["  - Skipped ", target, ": declined by user."])
  return ⟨target, .skipped, "declined by user"⟩

def save (target content : Text) : Attempt Unit :=
  (writeText target content).adapt fun e =>
    if e.isSystem then .fileNotSaved target e.message else e

/-- Records a change whose backup has been taken. Nothing that fails here stops the change. -/
def recordChange (target path ref how : Text) : Session Unit := do
  let now ← clock
  let entry :=
    HistoryEntry.ofTexts path ref (glue ["Applied code block (", how, ")"]) now.extended
  match ← (record entry).run with
  | .ok true => pure ()
  | .ok false => log .warning .apply (glue ["History entry for ", target, " was not recorded"])
  | .error e =>
    log .warning .apply (glue ["Recording history for ", target, " failed: ", e.message])

/-- Asks for a backup of the old content of a file, under its absolute path if the workspace can
tell it. The reply is that path and the reference. -/
def askBackup (company : Company) (target existing : Text) : Attempt (Text × Option Text) := do
  let path ← if company.resolvesPaths then absolutePath target else pure target
  let ref ← backup path existing
  return (path, ref)

/-- Backs up the old content of a file and records the change. Nothing that fails here stops the
change. -/
def backUp (settings : Settings) (company : Company) (target existing how : Text) :
    Session Unit := do
  if settings.backups && company.backups then
    let missing :=
      tell (glue ["  - WARNING: No backup for ", target,
        "; the change will not appear in history."])
    match ← (askBackup company target existing).run with
    | .error e =>
      log .warning .apply (glue ["Backup of ", target, " failed: ", e.message])
      missing
    | .ok (_, none) => missing
    | .ok (path, some ref) =>
      if ref.isEmpty then missing
      else if company.records then recordChange target path ref how

def updateFile (settings : Settings) (company : Company) (block : Block) (target : Text) :
    Attempt BlockResult := do
  let existing ← readText target
  tellRevision settings block.code existing
  let revision ← match revise settings block.code existing with
    | .ok revision => pure revision
    | .error e => throw (.edit e)
  let agreed ←
    if company.confirms then
      agrees (changeQuestion settings target existing revision.content)
    else pure true
  if !agreed then return ← declined target
  if settings.dryRun then
    return ⟨target, .updated, "DRY RUN: would apply ".toList ++ revision.how⟩
  backUp settings company target existing revision.how
  save target revision.content
  tell (glue ["  ✔ Updated ", target, ": ", revision.how])
  return ⟨target, .updated, revision.how⟩

def makeParent (target : Text) : Attempt Unit :=
  let parent := Path.dirname target
  if parent.isEmpty then pure ()
  else (makeFolder parent).adapt fun e =>
    if e.isSystem then .folderNotMade target e.message else e

def createFile (settings : Settings) (company : Company) (block : Block) (target : Text) :
    Attempt BlockResult := do
  let agreed ←
    if settings.confirmNew && company.confirms then
      agrees (glue ["File \"", target, "\" does not exist. Create a new file?"], fileOptions)
    else pure true
  if !agreed then return ← declined target
  if settings.dryRun then
    return ⟨target, .created,
      glue ["DRY RUN: would create file (", ofNat block.code.length, " chars)"]⟩
  makeParent target
  save target block.code
  tell (glue ["  ✔ Created ", target])
  return ⟨target, .created, "created file"⟩

def applyTo (settings : Settings) (company : Company) (block : Block) (target : Text) :
    Attempt BlockResult := do
  if ← fileExists target then updateFile settings company block target
  else createFile settings company block target

def failure (target : Text) (fault : Fault) : Session BlockResult := do
  if !fault.isApply then
    log .error .apply (glue ["Unexpected error while applying ", target])
  tell (glue ["  ✘ Failed to apply ", target, ": ", fault.message])
  return ⟨target, .failed, fault.message⟩

def applyBlock (settings : Settings) (company : Company) (block : Block) :
    Session BlockResult := do
  match ← (resolveTarget settings block.path).run with
  | .error fault => failure block.path fault
  | .ok target =>
    match ← (applyTo settings company block target).run with
    | .ok result => return result
    | .error fault => failure target fault

def applyEach (settings : Settings) (company : Company) : List Block → Session (List BlockResult)
  | [] => return []
  | block :: blocks => do
    let result ← applyBlock settings company block
    let results ← applyEach settings company blocks
    return result :: results

/-- The paths that were written, each once, in the order of the first time. -/
def writtenPaths (settings : Settings) (results : List BlockResult) : List Text :=
  if settings.dryRun then []
  else
    (results.filter (·.status.isSuccess)).foldl
      (fun paths r => if paths.contains r.path then paths else paths ++ [r.path]) []

/-- Opens files in the viewer; the result lists those that it has opened. -/
def openEach : List Text → Session (List Text)
  | [] => return []
  | path :: paths => do
    match ← (view path).run with
    | .ok () =>
      let opened ← openEach paths
      return path :: opened
    | .error e =>
      log .warning .apply (glue ["Failed to open ", path, ": ", e.message])
      openEach paths

def openWritten (settings : Settings) (company : Company) (written : List Text) :
    Session (List Text) := do
  if !company.views || written.isEmpty then return []
  let limit := settings.maxOpen.toNat
  let opened ← openEach (written.take limit)
  if limit < written.length then
    tell (glue ["Only opened ", ofNat limit, " out of ", ofNat written.length,
      " files to avoid cluttering."])
  return opened

def applyBlocks (settings : Settings) (company : Company) (blocks : List Block) :
    Session Summary := do
  let results ← applyEach settings company blocks
  let opened ← openWritten settings company (writtenPaths settings results)
  return { results, opened, dryRun := settings.dryRun }

def nothingToApply (settings : Settings) (reason : Text) : Session Summary := do
  tell (glue ["Nothing to apply: ", reason])
  return { nothingToApply := true, dryRun := settings.dryRun }

def applyText (settings : Settings) (company : Company) (text : Text) : Session Summary := do
  if isBlankText text then nothingToApply settings "no text was provided."
  else
    logAll (unaddressedRecords text)
    match blocks text with
    | [] => nothingToApply settings "no code blocks with file paths were found."
    | found => applyBlocks settings company found

end CodeGraft
