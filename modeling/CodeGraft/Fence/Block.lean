import CodeGraft.Fence.Region
import CodeGraft.Text.LineBreak
import CodeGraft.Text.Lowercase
import CodeGraft.Text.Quoted

/-!
# Code blocks

A code block (`extract_blocks`) is a fenced region whose nearest line above that is not blank looks
like the path of a file (`looks_like_path`). Other regions are left out; a destination is never made
up.
-/

namespace CodeGraft

open Text

structure Block where
  path : Text
  language : Text
  code : Text
  deriving DecidableEq

structure Unaddressed where
  /-- The offset of the region's code. -/
  start : Nat
  /-- The line that is no path, if there was one. -/
  hint : Option Text
  deriving DecidableEq

def looksLikePath (line : Text) : Bool := line.contains '/' || line.contains '.'

/-- The language that an info names: its first word in lower case, unless that sets an attribute
(`_language_from_info`). -/
def languageOf (info : Text) : Text :=
  match words info with
  | [] => []
  | word :: _ => if word.contains '=' then [] else lower word

def pathHint? (preamble : Text) : Option Text :=
  ((bareLines preamble).reverse.find? (!isBlankText ·)).map trim

def Block.ofRegion (region : Region) : Except Unaddressed Block :=
  match pathHint? region.preamble with
  | some hint =>
    if looksLikePath hint then .ok ⟨hint, languageOf region.info, region.code⟩
    else .error ⟨region.start, some hint⟩
  | none => .error ⟨region.start, none⟩

def readRegions (text : Text) : List (Except Unaddressed Block) :=
  (Region.all text).map Block.ofRegion

def blocks (text : Text) : List Block := (readRegions text).filterMap Except.toOption

def unaddressed (text : Text) : List Unaddressed :=
  (readRegions text).filterMap fun
    | .ok _ => none
    | .error e => some e

def Unaddressed.message (u : Unaddressed) : Text :=
  .glue ["Skipping fenced block at ", .ofNat u.start, ": no usable path hint (",
    (u.hint.map quoted).getD "None", ")"]

end CodeGraft
