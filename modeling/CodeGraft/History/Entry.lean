import CodeGraft.Json.Value

/-!
# History entries

An entry of the history says which file was changed and where its backup is. In a ledger that was
written by hand its fields can hold any values.
-/

namespace CodeGraft

open Json

structure HistoryEntry where
  filePath : Value
  backupRef : Value
  description : Value
  timestamp : Value

namespace HistoryEntry

def ofTexts (filePath backupRef description timestamp : Text) : HistoryEntry :=
  ⟨.text filePath, .text backupRef, .text description, .text timestamp⟩

def ofValue (v : Value) : HistoryEntry :=
  let field (key : Text) : Value := (v.get? key).getD (.text [])
  ⟨field "filePath", field "backupPath", field "description", field "timestamp"⟩

def toValue (e : HistoryEntry) : Value :=
  .object [("filePath", e.filePath), ("backupPath", e.backupRef), ("description", e.description),
    ("timestamp", e.timestamp)]

theorem ofValue_toValue (e : HistoryEntry) : ofValue e.toValue = e := by
  cases e
  rfl

end HistoryEntry

end CodeGraft
