import CodeGraft.Apply.Batch
import CodeGraft.Backup.Store
import CodeGraft.Console
import CodeGraft.History.Ledger
import CodeGraft.Workspace.Local

/-!
# Sessions on a machine

A session on a machine works in a local workspace. Its user sits at the console, and its backups and
its history are kept in stores on the disk.
-/

namespace CodeGraft

structure Stores where
  backups : BackupStore
  ledger : Ledger

namespace LocalWorkspace

def withBackups {α : Type} (work : BackupStore.Work α) : StateT Stores Routine (Except Fault α) :=
  fun stores => do
    let (result, backups) ← work.run.run stores.backups
    return (result, { stores with backups })

def withLedger {α : Type} (work : Ledger.Work α) : StateT Stores Routine (Except Fault α) :=
  fun stores => do
    let (result, ledger) ← work.run.run stores.ledger
    return (result, { stores with ledger })

def reply (w : LocalWorkspace) : (q : Request) → StateT Stores Routine (Reply q)
  | .fileExists path => StateT.lift (w.fileExists path).run
  | .readText path => StateT.lift (w.readText path).run
  | .writeText path content => StateT.lift (w.writeText path content).run
  | .makeFolder path => StateT.lift (w.makeFolder path).run
  | .findByName name => StateT.lift (w.findByName name).run
  | .absolutePath path => pure (w.absolutePath path)
  | .confirm prompt options => StateT.lift (Console.confirm prompt options).run
  | .backup path content => withBackups (BackupStore.backup path content)
  | .record entry => withLedger do return (← Ledger.record entry).1
  | .view path => StateT.lift (do Machine.view path; return .ok ())
  | .clock => StateT.lift Machine.now
  | .tell message => StateT.lift (Machine.print message)
  | .detail _ => pure ()
  | .log entry => StateT.lift (Machine.call (.log entry))

def hold {α : Type} (w : LocalWorkspace) (stores : Stores) (session : Session α) : Routine α := do
  let (result, _) ← (Dialogue.relay w.reply session).run stores
  return result

end LocalWorkspace

end CodeGraft
