import CodeGraft.Text.Basic

/-!
# Paths

A path is a text whose parts are separated by slashes. Its normal form has no empty part and no
single dot, and two dots only at the front of a relative path; a path that starts with exactly two
slashes keeps them, and any other number of leading slashes becomes one.
-/

namespace CodeGraft.Path

open Text

def isAbsolute (path : Text) : Bool := path.head? = some '/'

def basename (path : Text) : Text := (path.reverse.takeWhile (· ≠ '/')).reverse

/-- What stands before the last part, without the slashes between them unless there is nothing else.
-/
def dirname (path : Text) : Text :=
  let head := (path.reverse.dropWhile (· ≠ '/')).reverse
  if head.all (· = '/') then head else (head.reverse.dropWhile (· = '/')).reverse

/-- The folder that a path lies in and the path's name there; slashes at the end do not count. -/
def parentAndName (path : Text) : Text × Text :=
  let path := if (basename path).isEmpty then dirname path else path
  (dirname path, basename path)

/-- A path and the folders above it up to the root, the nearest first, at most `bound` of them. -/
def upwardWithin : (bound : Nat) → Text → List Text
  | 0, path => [path]
  | bound + 1, path =>
    if dirname path = path then [path] else path :: upwardWithin bound (dirname path)

/-- A path and the folders above it up to the root, the nearest first. -/
def upward (path : Text) : List Text := upwardWithin path.length path

theorem takeWhile_ne_of_not_mem {c : Char} {text : Text} (h : c ∉ text) :
    text.takeWhile (· ≠ c) = text := by
  induction text with
  | nil => rfl
  | cons x text ih =>
    simp only [List.mem_cons, not_or] at h
    have hx : decide (x ≠ c) = true := by simpa using Ne.symm h.1
    rw [List.takeWhile_cons, if_pos hx, ih h.2]

theorem basename_of_not_mem {path : Text} (h : '/' ∉ path) : basename path = path := by
  rw [basename, takeWhile_ne_of_not_mem (by simpa using h), List.reverse_reverse]

/-- A path that follows another one; an absolute path stands for itself. -/
def join (base path : Text) : Text :=
  if isAbsolute path then path
  else if base.isEmpty || base.getLast? = some '/' then base ++ path
  else base ++ '/' :: path

/-- The leading slashes that the normal form of a path has. -/
def rootOf (path : Text) : Text :=
  match path with
  | '/' :: '/' :: '/' :: _ => ['/']
  | '/' :: '/' :: _ => ['/', '/']
  | '/' :: _ => ['/']
  | _ => []

/-- Puts a part on the stack of the parts before it, the nearest on top. Two dots take back the part
before, unless that is two dots too; at the root there is nothing to take back. -/
def pushPart (rooted : Bool) (stack : List Text) (part : Text) : List Text :=
  if part = [] ∨ part = ['.'] then stack
  else if part = ['.', '.'] then
    match stack with
    | [] => if rooted then [] else [part]
    | top :: rest => if top = ['.', '.'] then part :: stack else rest
  else part :: stack

def normalParts (path : Text) : List Text :=
  ((splitOn '/' path).foldl (pushPart (isAbsolute path)) []).reverse

/-- The normal form of a path; the empty path stands for the current folder. -/
def normalize (path : Text) : Text :=
  let normal := rootOf path ++ joinWith ['/'] (normalParts path)
  if normal.isEmpty then ['.'] else normal

/-- The normal form of a path that is relative to the folder `cwd` unless it is absolute. -/
def absolute (cwd path : Text) : Text := normalize (join cwd path)

/-- The absolute normal form with a single leading slash. -/
def real (cwd path : Text) : Text := '/' :: joinWith ['/'] (normalParts (join cwd path))

def parts (path : Text) : List Text := (splitOn '/' path).filter fun p => p ≠ [] ∧ p ≠ ['.']

def isWithin (folder path : Text) : Bool := (parts folder).isPrefixOf (parts path)

def tildeName? : Text → Option Text
  | '~' :: rest => some (rest.takeWhile (· ≠ '/'))
  | _ => none

/-- A path with the folder `home` instead of its part up to the first slash. -/
def putHome (home path : Text) : Text :=
  let expanded := (home.reverse.dropWhile (· = '/')).reverse ++ path.dropWhile (· ≠ '/')
  if expanded.isEmpty then ['/'] else expanded

def holdsNull (path : Text) : Bool := path.contains '\x00'

end CodeGraft.Path
