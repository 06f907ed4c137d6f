import CodeGraft.Machine.Call
import CodeGraft.Machine.Disk

/-!
# A world in memory

A machine as a value: a disk, a clock, and what the user will type. It answers the calls of a
routine; what the routine prints and logs is seen from its exchanges.
-/

namespace CodeGraft

open Text

/-- What can still be read from the user. -/
inductive Input where
  /-- Bytes of which none has been read. -/
  | sealed (content : Bytes)
  /-- Text that has been decoded, and why there is none behind it unless the input just ends. -/
  | opened (text : Text) (broken : Option Utf8.DecodeError)
  /-- Answers that are given one by one. -/
  | answers (lines : List Text)

namespace Input

/-- The input after the first bytes have been decoded. A run of bytes at the end that might have
gone on is refused only when the end is reached. -/
def start (content : Bytes) : Except Utf8.DecodeError (Text × Option Utf8.DecodeError) :=
  match Utf8.decode content with
  | .ok text => .ok (unifyNewlines text, none)
  | .error e =>
    match e.fault with
    | .unexpectedEnd =>
      .ok (unifyNewlines (Utf8.decodeDropping (content.take e.position)),
        some { e with position := 0 })
    | _ => .error e

def takeLine (text : Text) (broken : Option Utf8.DecodeError) :
    Except Fault (Option Text) × Input :=
  let line := text.takeWhile (· ≠ '\n')
  match text.drop line.length with
  | _ :: rest => (.ok (some line), .opened rest broken)
  | [] =>
    match broken with
    | some e => (.error (.undecodable e), .opened [] broken)
    | none => (.ok (if line.isEmpty then none else some line), .opened [] none)

def line : Input → Except Fault (Option Text) × Input
  | sealed content =>
    match start content with
    | .ok (text, broken) => takeLine text broken
    | .error e => (.error (.undecodable e), opened [] none)
  | opened text broken => takeLine text broken
  | answers [] => (.ok none, answers [])
  | answers (a :: rest) => (.ok (some a), answers rest)

def rest : Input → Except Fault Text × Input
  | sealed content => (Machine.textOf content, opened [] none)
  | opened text none => (.ok text, opened [] none)
  | opened _ (some e) => (.error (.undecodable e), opened [] none)
  | answers lines => (.ok (unlines lines), answers [])

end Input

/-- What a machine brings with it, and no call changes. One that cannot read ignore files leaves
nothing out. -/
structure Surroundings where
  homes : Text → Option Text := fun user => if user.isEmpty then some ['/'] else none
  ignoreTest : List Text → Except Fault (Text → Bool) := fun _ => .ok fun _ => false
  nesting : NestingLimit := usualNesting

structure World extends Surroundings where
  disk : Disk := {}
  now : Instant
  input : Input := .sealed []
  clipboard : Text := []

namespace World

def ask {α : Type} (path : Text) (answer : Except DiskRefusal α) : Except Fault α :=
  if Path.holdsNull path then .error .nullInPath
  else match answer with
    | .ok a => .ok a
    | .error refusal => .error (.disk ⟨refusal, path⟩)

def change (w : World) (path : Text) (answer : Except DiskRefusal Disk) :
    Except Fault Unit × World :=
  match ask path answer with
  | .ok disk => (.ok (), { w with disk })
  | .error e => (.error e, w)

def host : Dialogue.Host Answer World
  | .holds path, w => (w.disk.holds path, w)
  | .isFile path, w => (w.disk.isFile path, w)
  | .isFolder path, w => (w.disk.isFolder path, w)
  | .read path, w => (ask path (w.disk.read path), w)
  | .write path content, w => w.change path (w.disk.write w.now path content)
  | .makeFolder path, w => w.change path (w.disk.makeFolder path)
  | .remove path, w => w.change path (w.disk.remove path)
  | .files folder, w => (w.disk.files folder, w)
  | .names folder, w => (w.disk.names folder, w)
  | .below folder, w =>
    (ask folder (.ok ((w.disk.below folder).map fun (way, node) => (way, node ≠ .folder))), w)
  | .currentFolder, w => ('/' :: joinWith ['/'] w.disk.current, w)
  | .homeOf user, w => (w.homes user, w)
  | .ignoreTest lines, w => (w.ignoreTest lines, w)
  | .nesting, w => (w.nesting, w)
  | .now, w => (w.now, w)
  | .print _, w => ((), w)
  | .complain _, w => ((), w)
  | .readLine _, w =>
    let (answer, input) := w.input.line
    (answer, { w with input })
  | .readInput, w =>
    let (answer, input) := w.input.rest
    (answer, { w with input })
  | .clipboard, w => (w.clipboard, w)
  | .view _, w => ((), w)
  | .log _, w => ((), w)

end World

namespace Machine

def printedIn : Dialogue.Exchange Answer → Text
  | ⟨.print line, _⟩ => line ++ ['\n']
  | ⟨.readLine prompt, _⟩ => prompt
  | _ => []

def complainedIn : Dialogue.Exchange Answer → Text
  | ⟨.complain line, _⟩ => line ++ ['\n']
  | _ => []

def viewedIn? : Dialogue.Exchange Answer → Option Text
  | ⟨.view path, _⟩ => some path
  | _ => none

def loggedIn? : Dialogue.Exchange Answer → Option LogRecord
  | ⟨.log entry, _⟩ => some entry
  | _ => none

def printed (exchanges : List (Dialogue.Exchange Answer)) : Text := exchanges.flatMap printedIn

def complaints (exchanges : List (Dialogue.Exchange Answer)) : Text :=
  exchanges.flatMap complainedIn

def viewed (exchanges : List (Dialogue.Exchange Answer)) : List Text :=
  exchanges.filterMap viewedIn?

def logged (exchanges : List (Dialogue.Exchange Answer)) : List LogRecord :=
  exchanges.filterMap loggedIn?

end Machine

end CodeGraft
