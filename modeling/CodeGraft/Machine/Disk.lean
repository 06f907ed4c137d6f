import CodeGraft.Fault
import CodeGraft.Path
import CodeGraft.Time

/-!
# Disks

A disk holds folders and files at places below its root. A path is walked part by part from the
root, or from the current folder if it is relative, and each part but the last must lead on from a
folder. What the operations do is said through `node?`: `node?_put` and `node?_erase`.
-/

namespace CodeGraft

open Text

/-- What stands at a place of a disk. -/
inductive Node where
  | folder
  | file (content : Bytes) (modified : Instant)
  deriving DecidableEq

abbrev Place := List Text

/-- What stands at the places below the root. The root itself is a folder. -/
structure Disk where
  nodes : List (Place × Node) := []
  /-- The folder that relative paths start from. -/
  current : Place := []

namespace Disk

def node? (d : Disk) (place : Place) : Option Node :=
  if place = [] then some .folder else (d.nodes.find? (·.1 = place)).map (·.2)

def put (d : Disk) (place : Place) (node : Node) : Disk :=
  { d with nodes := (place, node) :: d.nodes.filter (·.1 ≠ place) }

def erase (d : Disk) (place : Place) : Disk :=
  { d with nodes := d.nodes.filter (·.1 ≠ place) }

/-- Takes away what stands at a place or below it. -/
def eraseTree (d : Disk) (place : Place) : Disk :=
  { d with nodes := d.nodes.filter fun n => !place.isPrefixOf n.1 }

theorem find?_filter_ne (nodes : List (Place × Node)) {place other : Place} (h : other ≠ place) :
    (nodes.filter (·.1 ≠ place)).find? (·.1 = other) = nodes.find? (·.1 = other) := by
  induction nodes with
  | nil => rfl
  | cons n nodes ih =>
    by_cases hn : n.1 = place
    · have : ¬ n.1 = other := fun e => h (e.symm.trans hn)
      simpa [hn, List.find?_cons, this, Ne.symm h] using ih
    · by_cases ho : n.1 = other
      · simp [ho, h]
      · simpa [hn, ho] using ih

theorem find?_filter_self (nodes : List (Place × Node)) (place : Place) :
    (nodes.filter (·.1 ≠ place)).find? (·.1 = place) = none := by
  rw [List.find?_eq_none]
  intro n hn
  simpa using (List.mem_filter.1 hn).2

theorem node?_put (d : Disk) {place : Place} (node : Node) (other : Place) (h : place ≠ []) :
    (d.put place node).node? other = if other = place then some node else d.node? other := by
  by_cases ho : other = place
  · subst ho
    simp [node?, put, h]
  · rw [if_neg ho, node?, node?]
    congr 2
    rw [put, List.find?_cons_of_neg (by simpa using Ne.symm ho)]
    exact find?_filter_ne _ ho

theorem node?_erase (d : Disk) {place : Place} (other : Place) (h : place ≠ []) :
    (d.erase place).node? other = if other = place then none else d.node? other := by
  by_cases ho : other = place
  · subst ho
    rw [node?, if_neg h, if_pos rfl, erase, find?_filter_self]
    rfl
  · rw [if_neg ho, node?, node?, erase, find?_filter_ne _ ho]

def step (here : Place) (part : Text) : Place :=
  if part = ['.'] then here else if part = ['.', '.'] then here.dropLast else here ++ [part]

def maxNameLength : Nat := 255

def maxPathLength : Nat := 4095

def walk (d : Disk) : Place → List Text → Except DiskRefusal Place
  | here, [] => .ok here
  | here, part :: parts =>
    match d.node? here with
    | none => .error .missing
    | some (.file _ _) => .error .notFolder
    | some .folder =>
      if maxNameLength < (Utf8.encode part).length then .error .tooLong
      else d.walk (step here part) parts

/-- The place that a path leads to. Nothing need stand there. -/
def placeOf (d : Disk) (path : Text) : Except DiskRefusal Place :=
  if path = [] then .error .missing
  else if maxPathLength < (Utf8.encode path).length then .error .tooLong
  else d.walk (if Path.isAbsolute path then [] else d.current) ((splitOn '/' path).filter (· ≠ []))

def namesFolder (path : Text) : Bool := path.getLast? = some '/'

def nodeAt (d : Disk) (path : Text) : Except DiskRefusal Node := do
  match d.node? (← d.placeOf path) with
  | none => throw .missing
  | some .folder => return .folder
  | some (.file content modified) =>
    if namesFolder path then throw .notFolder else return .file content modified

def holds (d : Disk) (path : Text) : Bool := (d.nodeAt path).toOption.isSome

def isFolder (d : Disk) (path : Text) : Bool := (d.nodeAt path).toOption = some .folder

def isFile (d : Disk) (path : Text) : Bool := d.holds path && !d.isFolder path

def read (d : Disk) (path : Text) : Except DiskRefusal Bytes := do
  match ← d.nodeAt path with
  | .folder => throw .isFolder
  | .file content _ => return content

def write (d : Disk) (now : Instant) (path : Text) (content : Bytes) : Except DiskRefusal Disk := do
  let place ← d.placeOf path
  if namesFolder path || d.node? place = some .folder then throw .isFolder
  return d.put place (.file content now)

def makeFolder (d : Disk) (path : Text) : Except DiskRefusal Disk := do
  let place ← d.placeOf path
  if (d.node? place).isSome then throw .taken
  return d.put place .folder

def remove (d : Disk) (path : Text) : Except DiskRefusal Disk := do
  match ← d.nodeAt path with
  | .folder => throw .isFolder
  | .file _ _ => return d.erase (← d.placeOf path)

def wayFrom? : (folder place : Place) → Option Place
  | [], [] => none
  | [], place => some place
  | _ :: _, [] => none
  | f :: folder, p :: place => if f = p then wayFrom? folder place else none

def below (d : Disk) (path : Text) : List (Place × Node) :=
  match d.nodeAt path, d.placeOf path with
  | .ok .folder, .ok folder => d.nodes.filterMap fun n => (wayFrom? folder n.1).map (·, n.2)
  | _, _ => []

def names (d : Disk) (path : Text) : List Text :=
  (d.below path).filterMap fun
    | ([name], _) => some name
    | _ => none

def files (d : Disk) (path : Text) : List (Text × Instant) :=
  (d.below path).filterMap fun
    | ([name], .file _ modified) => some (name, modified)
    | _ => none

end Disk

end CodeGraft
