import CodeGraft.Callable.Index

/-!
# Whole files and parts

A block of code is either a whole file or a part of one. An ordered table of rules decides
(`explain_classification`): the first rule that holds of the block and of the number of its
callables gives the verdict, and a block that no rule speaks of is a whole file.
-/

namespace CodeGraft

open Text Pattern

/-- How much of a file a block of code stands for. -/
inductive Extent where
  | whole
  | part
  deriving DecidableEq, Repr

def Extent.name : Extent → Text
  | .whole => "full"
  | .part => "partial"

/-- An import of any of the usual notations, at the very start of a block. -/
def importHead : Pattern := .seq blanks (anyOf [
  cat ["import", wordEdge],
  cat ["from", someBlanks, oneOrMore (.one fun c => !isBlank c), someBlanks, "import", wordEdge],
  cat [anyWord ["const", "let", "var"], someBlanks, .many (charNotIn "\n"), "=", blanks, "require",
    blanks, "("],
  cat ["require", blanks, "("],
  cat ["#", blanks, "include", wordEdge],
  cat ["using", someBlanks, oneOrMore (.one fun c => isWordChar c || c = '.'), blanks, ";"],
  cat ["use", someBlanks, oneOrMore (.one fun c => isWordChar c || c = ':')],
  cat ["package", someBlanks, oneOrMore (.one fun c => isWordChar c || c = '.')]])

def hasLeadingImports (code : Text) : Bool := importHead.fits code

def typeHead : Pattern := cat [
  lineStart, blanks,
  optional (cat ["export", someBlanks]),
  optional (cat ["default", someBlanks]),
  .many (cat [anyWord ["public", "private", "abstract", "final", "sealed", "data"], someBlanks]),
  anyWord ["class", "interface", "struct", "enum", "trait"],
  someBlanks, oneOrMore (.one isWordChar)]

def definesType (code : Text) : Bool := typeHead.occursIn code

/-- Whether a block is nothing but a file extension (`is_bare_extension`). -/
def isBareExtension (code : Text) : Bool :=
  match trim code with
  | '.' :: word => !word.isEmpty && word.all isWordChar
  | _ => false

def functionKeyword : Pattern := cat [
  optional (cat ["export", someBlanks]),
  optional (cat ["async", someBlanks]),
  anyWord ["function", "def", "func", "fn"], wordEdge]

def startsWithFunctionKeyword (code : Text) : Bool := functionKeyword.fits (trim code)

/-- The rules, and the case that none of them speaks of. -/
inductive Rule where
  | importsWithStructure
  | fewFunctions
  | leadingFunctionKeyword
  | unmatched
  deriving DecidableEq, Repr

namespace Rule

def table : List Rule := [importsWithStructure, fewFunctions, leadingFunctionKeyword]

def name : Rule → Text
  | importsWithStructure => "imports-with-structure"
  | fewFunctions => "few-functions"
  | leadingFunctionKeyword => "leading-function-keyword"
  | unmatched => "default"

def holds (code : Text) (count : Nat) : Rule → Bool
  | importsWithStructure => hasLeadingImports code && (definesType code || 3 < count)
  | fewFunctions => 1 ≤ count && count ≤ 3 && !hasLeadingImports code && !isBareExtension code
  | leadingFunctionKeyword => startsWithFunctionKeyword code
  | unmatched => true

def extent : Rule → Extent
  | importsWithStructure => .whole
  | fewFunctions => .part
  | leadingFunctionKeyword => .part
  | unmatched => .whole

/-- The first rule that speaks of a block that holds `count` callables. -/
def deciding (code : Text) (count : Nat) : Rule :=
  (table.find? (·.holds code count)).getD unmatched

end Rule

def decidingRule (code : Text) : Rule := Rule.deciding code (Index.of code).spans.length

def extentOf (code : Text) : Extent := (decidingRule code).extent

end CodeGraft
