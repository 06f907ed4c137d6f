import CodeGraft.Command.Line
import CodeGraft.Workspace.Session

/-!
# Running commands

A command ends with a status (`main`): zero when all went well, one when a block or the command
failed, and two when it was called wrongly.
-/

namespace CodeGraft.Command

open Text

/-- Why a command that was read cannot be carried out as it was called. -/
abbrev Objection := Text

/-- Tells that the program was called wrongly. -/
def object (speaker : Text) (objection : Objection) : Routine Nat := do
  Machine.complain (glue [speaker, ": error: ", objection])
  return 2

def logAll : List LogRecord → Routine Unit
  | [] => return
  | record :: rest => do
    Machine.call (.log record)
    logAll rest

def Source.read (s : Source) : Errand (Except Objection Text) := do
  match s.clipboard, s.file.filter (· ≠ ['-']) with
  | true, some _ => return .error "--clipboard cannot be combined with an input file"
  | true, none => return .ok (← Machine.clipboard)
  | false, none => return .ok (← Machine.readInput)
  | false, some path =>
    tryCatch (Except.ok <$> Machine.readText path) fun e =>
      match e with
      | .disk e => return .error (glue ["Cannot read ", path, ": ", e.message])
      | e => throw e

/-- The path that an option was given. Where it is needed, nothing goes on without it. -/
def needPath : Option Text → Errand Text
  | some path => return path
  | none => throw (.notOpenable "list")

/-- The folder of the backups. In the default one the tilde is expanded when the options are set up,
and whoever uses a folder expands what it starts with. -/
def Shared.folder (s : Shared) : Errand Text :=
  match s.backupFolder with
  | none => Machine.expandHome defaultBackupFolder
  | some chosen => needPath chosen

/-- The ledger in a folder. Without a limit it is only read and cleared, as no backup is taken. -/
def Shared.ledgerIn (s : Shared) (folder : Text) : Errand Ledger :=
  Ledger.atPath (Path.join folder historyFileName) (s.maxHistory.getD 0)

def Shared.ledger (s : Shared) : Errand Ledger := do
  s.ledgerIn (← s.folder)

def Shared.entries (s : Shared) : Errand (List HistoryEntry) := do
  let ledger ← s.ledger
  let (result, _) ← Ledger.entries.run.run ledger
  match result with
  | .ok entries => return entries
  | .error e => throw e

/-! ### Applying and listing blocks -/

/-- What a user has chosen about a batch. -/
def settingsOf (o : ApplyOptions) : Settings where
  saveFolder := o.saveFolder.getD []
  diffPreview := !o.noDiff
  confirmNew := o.confirmNew
  backups := !o.noBackup
  maxOpen := o.maxOpen.getD 0
  dryRun := o.dryRun
  insertNew := o.insertNew

/-- Who takes part in a batch. Files are not opened when it is unknown how many there may be. -/
def companyOf (o : ApplyOptions) : Company where
  confirms := !o.yes
  backups := !o.noBackup && !o.dryRun
  records := !o.noBackup && !o.dryRun
  views := o.view && o.maxOpen.isSome

/-- The stores of a batch. Without backups nothing is put into them, so they can be anywhere. -/
def Shared.stores (s : Shared) (company : Company) : Errand Stores := do
  let folder ← if company.backups then s.folder else pure []
  return ⟨← BackupStore.inFolder folder s.maxHistory, ← s.ledgerIn folder⟩

def applyInput (s : Shared) (o : ApplyOptions) : Errand (Except Objection Summary) := do
  match ← o.source.read with
  | .error objection => return .error objection
  | .ok text =>
    let company := companyOf o
    let stores ← s.stores company
    let workspace ← LocalWorkspace.atFolder (← needPath o.base) false
    let session := applyText (settingsOf o) company text
    return .ok (← (workspace.hold stores session : Routine Summary))

/-- Applies the code blocks of the input and tells what has become of them (`_cmd_apply`). -/
def runApply (s : Shared) (o : ApplyOptions) : Errand Nat := do
  match ← applyInput s o with
  | .error objection => object programName objection
  | .ok summary =>
    if o.view && o.maxOpen.isNone && !(writtenPaths (settingsOf o) summary.results).isEmpty then
      throw (.incomparable ">")
    Machine.print summary.message
    return if summary.failed.isEmpty then 0 else 1

def blockLine (number : Nat) (block : Block) : Text :=
  let rule := decidingRule block.code
  glue [padStart 3 (ofNat number), ". ", block.path, "  [",
    if block.language.isEmpty then "-" else block.language, "]  ", rule.extent.name, " (",
    rule.name, "), ", ofNat block.code.length, " chars"]

def listBlocks : (number : Nat) → List Block → Routine Unit
  | _, [] => return
  | number, block :: rest => do
    logAll (passRecords (Index.of block.code))
    Machine.print (blockLine number block)
    listBlocks (number + 1) rest

def runBlocks (source : Source) : Errand Nat := do
  match ← source.read with
  | .error objection => object programName objection
  | .ok text =>
    logAll (unaddressedRecords text)
    match CodeGraft.blocks text with
    | [] => Machine.print "No code blocks with file paths were found."
    | found => listBlocks 1 found
    return 0

def noOpenFile : Text := "[Errno 9] Bad file descriptor"

/-- Writes the content of an entry's backup over its file. -/
def restoreEntry (entry : HistoryEntry) : Errand Unit := do
  let ref ← match entry.backupRef with
    | .text ref => pure ref
    | value => throw (.backupUnreadable value.shown noOpenFile)
  match entry.filePath with
  | .text target => Backup.restore ref target
  | value =>
    let _ ← Backup.read ref
    match value with
    | .bool _ => throw (.backupNotRestored ref value.shown noOpenFile)
    | .number (.integer _) => throw (.backupNotRestored ref value.shown noOpenFile)
    | value => throw (.notOpenable value.kindName)

def fail (message : Text) : Routine Nat := do
  Machine.complain message
  return 1

/-- Takes back the change of the entry of a number, the newest being the first (`_cmd_revert`). -/
def runRevert (s : Shared) (number : Option Int) : Errand Nat := do
  let entries ← s.entries
  if entries.isEmpty then fail "Nothing to revert: the history is empty."
  else
    match number with
    | none => throw (.incomparable "<=")
    | some number =>
      match if 1 ≤ number then entries[number.toNat - 1]? else none with
      | none =>
        object programName (glue ["--entry must be between 1 and ", ofNat entries.length])
      | some entry =>
        tryCatch
          (do
            restoreEntry entry
            Machine.print ("Successfully restored ".toList ++ entry.filePath.shown)
            return 0)
          fun e => do
            match e with
            | .backupUnreadable _ _ => fail e.message
            | .backupNotRestored _ _ _ => fail e.message
            | e => throw e

def listEntries : (number : Nat) → List HistoryEntry → Routine Unit
  | _, [] => return
  | number, entry :: rest => do
    Machine.print (glue [padStart 3 (ofNat number), ". ", entry.timestamp.shown, "  ",
      entry.filePath.shown, "  ", entry.description.shown])
    listEntries (number + 1) rest

def runHistory (s : Shared) : Errand Nat := do
  match ← s.entries with
  | [] => Machine.print "No history yet."
  | entries => listEntries 1 entries
  return 0

def runClearHistory (s : Shared) : Errand Nat := do
  let ledger ← s.ledger
  let (result, _) ← Ledger.clear.run.run ledger
  match result with
  | .ok () =>
    Machine.print "History cleared."
    return 0
  | .error (.historyNotSaved path reason) => fail (Fault.historyNotSaved path reason).message
  | .error e => throw e

def Invocation.carryOut (i : Invocation) : Errand Nat :=
  match i.command with
  | .apply options => runApply i.shared options
  | .blocks source => runBlocks source
  | .revert entry => runRevert i.shared entry
  | .history => runHistory i.shared
  | .clearHistory => runClearHistory i.shared

/-- What is shown to a user who asks how the program is called. -/
def helpLine : Text :=
  glue ["usage: ", programName, " [options] ", joinWith ['|'] commandNames, " [options] [file]"]

def run (line : List Text) : Errand Nat := do
  match Invocation.read line with
  | .error ⟨_, .help⟩ =>
    Machine.print helpLine
    return 0
  | .error misuse => object misuse.speaker misuse.refusal.message
  | .ok invocation =>
    tryCatch invocation.carryOut fun e => do
      if e.isOwn then
        Machine.log .debug .command "Command failed"
        fail (glue [programName, ": ", e.message])
      else throw e

def wantsDetails (line : List Text) : Bool :=
  match Invocation.read line with
  | .ok invocation => invocation.shared.verbose
  | .error _ => false

end CodeGraft.Command
