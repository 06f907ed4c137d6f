import CodeGraft.Edit.Basic
import CodeGraft.Text.Quoted
import CodeGraft.Text.Utf8

/-!
# Faults

Why something that deals with files, or with someone outside, failed. A fault is known by its cause;
its wording is the text that a user sees.
-/

namespace CodeGraft

open Text

inductive DiskRefusal where
  | missing
  | taken
  | notFolder
  | isFolder
  /-- A name or the whole path is longer than a disk allows. -/
  | tooLong
  deriving DecidableEq, Repr

def DiskRefusal.wording : DiskRefusal → Nat × String
  | .missing => (2, "No such file or directory")
  | .taken => (17, "File exists")
  | .notFolder => (20, "Not a directory")
  | .isFolder => (21, "Is a directory")
  | .tooLong => (36, "File name too long")

structure DiskError where
  refusal : DiskRefusal
  path : Text
  deriving DecidableEq

def DiskError.message (e : DiskError) : Text :=
  let (number, words) := e.refusal.wording
  .glue ["[Errno ", .ofNat number, "] ", words, ": ", quoted e.path]

/-- What someone outside says about a failure of theirs. -/
inductive Complaint where
  | system
  | forbidden
  | missing
  | broken
  | badValue
  | refused
  deriving DecidableEq, Repr

inductive PathMisuse where
  /-- It is of the kind with the given name. -/
  | kind (name : String)
  /-- It is a number above those that open files have. -/
  | above
  /-- It is a number below those that open files have. -/
  | below
  deriving DecidableEq, Repr

inductive Fault where
  | disk (e : DiskError)
  /-- A path holds a null character. -/
  | nullInPath
  | notPath (misuse : PathMisuse)
  /-- A value of the kind with the given name is no path that could be opened. -/
  | notOpenable (kind : String)
  /-- A number was to be compared, in the given way, with something that is none. -/
  | incomparable (sign : String)
  | undecodable (e : Utf8.DecodeError)
  /-- A value is nested too deep to be read; what could not be entered is of the given kind. -/
  | nestedTooDeep (kind : String)
  /-- A path leads out of the workspace with the given folder. -/
  | outside (path folder : Text)
  | edit (e : EditError)
  | folderNotMade (target reason : Text)
  | fileNotSaved (target reason : Text)
  | backupUnreadable (ref reason : Text)
  | backupNotRestored (ref target reason : Text)
  | historyNotSaved (path reason : Text)
  /-- There is nothing left of what was to be shortened. -/
  | nothingLeft
  /-- A choice has no first letter. -/
  | noLetter
  /-- The one who was asked does not offer this. -/
  | notOffered
  /-- Someone outside failed and said why. -/
  | reported (complaint : Complaint) (message : Text)

def Utf8.DecodeError.message (e : Utf8.DecodeError) : Text :=
  let reason : Text := match e.fault with
    | .invalidStart => "invalid start byte"
    | .invalidContinuation => "invalid continuation byte"
    | .unexpectedEnd => "unexpected end of data"
  match e.bytes with
  | [b] =>
    .glue ["'utf-8' codec can't decode byte 0x", hexDigits 2 b.toNat, " in position ",
      .ofNat e.position, ": ", reason]
  | bytes =>
    .glue ["'utf-8' codec can't decode bytes in position ", .ofNat e.position, "-",
      .ofNat (e.position + bytes.length - 1), ": ", reason]

namespace Fault

def message : Fault → Text
  | disk e => e.message
  | nullInPath => "embedded null byte"
  | notPath (.kind name) =>
    .glue ["stat: path should be string, bytes, os.PathLike or integer, not ", name]
  | notPath .above => "fd is greater than maximum"
  | notPath .below => "fd is less than minimum"
  | notOpenable kind =>
    .glue ["expected str, bytes or os.PathLike object, not ", kind]
  | incomparable sign => .glue ["'", sign, "' not supported between instances of 'int' and 'list'"]
  | undecodable e => e.message
  | nestedTooDeep kind =>
    .glue ["maximum recursion depth exceeded while decoding a JSON ", kind,
      " from a unicode string"]
  | outside path folder =>
    .glue ["Path '", path, "' resolves outside of the workspace '", folder, "'"]
  | edit e => e.message
  | folderNotMade target reason =>
    .glue ["Failed to create directory for ", target, ": ", reason]
  | fileNotSaved target reason => .glue ["Failed to save ", target, ": ", reason]
  | backupUnreadable ref reason => .glue ["Failed to read backup '", ref, "': ", reason]
  | backupNotRestored ref target reason =>
    .glue ["Failed to restore '", ref, "' to '", target, "': ", reason]
  | historyNotSaved path reason => .glue ["Failed to save history to '", path, "': ", reason]
  | nothingLeft => "pop from empty list"
  | noLetter => "string index out of range"
  | notOffered => []
  | reported _ message => message

def isSystem : Fault → Bool
  | disk _ => true
  | reported .system _ => true
  | reported .forbidden _ => true
  | reported .missing _ => true
  | _ => false

def isApply : Fault → Bool
  | folderNotMade _ _ => true
  | fileNotSaved _ _ => true
  | reported .refused _ => true
  | _ => false

def isOwn : Fault → Bool
  | outside _ _ => true
  | edit _ => true
  | folderNotMade _ _ => true
  | fileNotSaved _ _ => true
  | backupUnreadable _ _ => true
  | backupNotRestored _ _ _ => true
  | historyNotSaved _ _ => true
  | reported .refused _ => true
  | _ => false

end Fault

end CodeGraft
