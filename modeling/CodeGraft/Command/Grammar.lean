import CodeGraft.Text.Integer
import CodeGraft.Text.Quoted

/-!
# Grammars of command lines

The words of a command line are options and operands. An option is known by its names, or by the
start of a long name if no other has it; its value is the next word, or stands behind an equals
sign, where two dashes are no value. Short flags can share one dash. Behind the divider, two dashes,
all words are operands. Words that a grammar has no use for are left over.
-/

namespace CodeGraft.Command

open Text

/-- Why the words of a command line are refused. -/
inductive Refusal where
  /-- The start of a name fits several options. -/
  | ambiguous (word : Text) (names : List Text)
  | valueMissing (option : List Text)
  | valueIgnored (option : List Text) (value : Text)
  | notInteger (option : List Text) (value : Text)
  | unknownCommand (word : Text) (commands : List Text)
  | commandMissing
  | leftOver (words : List Text)
  /-- The user asks how the program is called. -/
  | help
  deriving DecidableEq

def Refusal.message : Refusal → Text
  | ambiguous word names =>
    .glue ["ambiguous option: ", word, " could match ", joinWith [',', ' '] names]
  | valueMissing option => .glue ["argument ", joinWith ['/'] option, ": expected one argument"]
  | valueIgnored option value =>
    .glue ["argument ", joinWith ['/'] option, ": ignored explicit argument ", quoted value]
  | notInteger option value =>
    .glue ["argument ", joinWith ['/'] option, ": invalid int value: ", quoted value]
  | unknownCommand word commands =>
    .glue ["argument command: invalid choice: ", quoted word, " (choose from ",
      joinWith [',', ' '] (commands.map quoted), ")"]
  | commandMissing => "the following arguments are required: command"
  | leftOver words => .glue ["unrecognized arguments: ", joinWith [' '] words]
  | help => []

/-- What an option does to the values of a command line. -/
inductive OptionEffect (σ : Type) where
  | help
  | flag (set : σ → σ)
  | text (set : Option Text → σ → σ)
  | integer (set : Option Int → σ → σ)

structure OptionRule (σ : Type) where
  names : List Text
  effect : OptionEffect σ

inductive OperandRule (σ : Type) where
  | none
  | one (set : Text → σ → σ)
  /-- An operand, and all words behind it as they are. -/
  | rest (set : List Text → σ → σ)

structure Grammar (σ : Type) where
  options : List (OptionRule σ)
  operand : OperandRule σ

variable {σ : Type}

namespace OptionRule

def takesValue (rule : OptionRule σ) : Bool :=
  match rule.effect with
  | .text _ => true
  | .integer _ => true
  | _ => false

def switch (rule : OptionRule σ) (values : σ) : Except Refusal σ :=
  match rule.effect with
  | .flag set => .ok (set values)
  | .help => .error .help
  | _ => .ok values

def store (rule : OptionRule σ) (given : Text) (values : σ) : Except Refusal σ :=
  match rule.effect, (some given).filter (· ≠ ['-', '-']) with
  | .text set, value => .ok (set value values)
  | .integer set, none => .ok (set none values)
  | .integer set, some value =>
    match readInteger? value with
    | some n => .ok (set (some n) values)
    | none => .error (.notInteger rule.names value)
  | _, _ => .ok values

end OptionRule

def Grammar.rule? (g : Grammar σ) (name : Text) : Option (OptionRule σ) :=
  g.options.find? (·.names.contains name)

/-! ### Words -/

structure Spelling (σ : Type) where
  rule : OptionRule σ
  /-- The name that is meant. -/
  name : Text
  /-- What is written behind the name. -/
  value : Option Text := none

inductive Word (σ : Type) where
  | operand (text : Text)
  | divider
  /-- A word that looks like an option, and the option if there is one. -/
  | option (text : Text) (meant : Option (Spelling σ))

def Word.text : Word σ → Text
  | operand text => text
  | divider => "--"
  | option text _ => text

/-- What stands in front of the first equals sign of a word, and what stands behind it. -/
def splitValue (word : Text) : Text × Option Text :=
  let name := word.takeWhile (· ≠ '=')
  match word.drop name.length with
  | _ :: value => (name, some value)
  | [] => (name, none)

def isNegativeNumber (word : Text) : Bool :=
  let body := match word with
    | '-' :: body => if body.getLast? = some '\n' then body.dropLast else body
    | _ => []
  let whole := body.takeWhile isDigit
  match body.drop whole.length with
  | [] => !whole.isEmpty
  | '.' :: fraction => !fraction.isEmpty && fraction.all isDigit
  | _ => false

def Grammar.guesses (g : Grammar σ) (word : Text) : List (Spelling σ) :=
  g.options.flatMap fun rule =>
    rule.names.filterMap fun name =>
      match word with
      | '-' :: '-' :: _ =>
        let (lead, value) := splitValue word
        if startsWith name lead then some ⟨rule, name, value⟩ else none
      | _ =>
        if name = word.take 2 then some ⟨rule, name, some (word.drop 2)⟩ else none

def Grammar.word (g : Grammar σ) (word : Text) : Except Refusal (Word σ) :=
  if word.head? ≠ some '-' then .ok (.operand word)
  else match g.rule? word with
  | some rule => .ok (.option word (some { rule, name := word }))
  | none =>
    if word.length = 1 then .ok (.operand word)
    else
      let (name, value) := splitValue word
      match value, g.rule? name with
      | some value, some rule => .ok (.option word (some ⟨rule, name, some value⟩))
      | _, _ =>
        match g.guesses word with
        | [meant] => .ok (.option word (some meant))
        | [] =>
          if isNegativeNumber word || word.contains ' ' then .ok (.operand word)
          else .ok (.option word none)
        | several => .error (.ambiguous word (several.map (·.name)))

def Grammar.words (g : Grammar σ) : List Text → Except Refusal (List (Word σ))
  | [] => .ok []
  | text :: rest =>
    if text = ['-', '-'] then .ok (.divider :: rest.map .operand)
    else do
      let word ← g.word text
      return word :: (← g.words rest)

/-- Options that are written in one word: short flags, and at last any option. -/
structure Bundle (σ : Type) where
  flags : List (OptionRule σ) := []
  last : OptionRule σ
  /-- What is given as the value of the last option in the same word. -/
  value : Option Text := none

namespace Bundle

def behind (rule : OptionRule σ) (b : Bundle σ) : Bundle σ := { b with flags := rule :: b.flags }

def wantsWord (b : Bundle σ) : Bool := b.last.takesValue && b.value.isNone

def apply (b : Bundle σ) (value : Option Text) (values : σ) : Except Refusal σ := do
  let values ← b.flags.foldlM (fun values rule => rule.switch values) values
  match value with
  | some value => b.last.store value values
  | none => b.last.switch values

end Bundle

/-- The bundle of an option and what is written behind its name. Behind an option without a value
each character is to be the letter of an option. -/
def Grammar.letters (g : Grammar σ) : (rule : OptionRule σ) → Text → Except Refusal (Bundle σ)
  | rule, [] =>
    if rule.takesValue then .ok { last := rule, value := some [] }
    else .error (.valueIgnored rule.names [])
  | rule, c :: rest =>
    if rule.takesValue then .ok { last := rule, value := some (c :: rest) }
    else
      match g.rule? ['-', c] with
      | none => .error (.valueIgnored rule.names (c :: rest))
      | some next =>
        if rest.isEmpty then .ok { flags := [rule], last := next }
        else (g.letters next rest).map (·.behind rule)

/-- The bundle that an option is written as. No letters can stand behind a long name. -/
def Grammar.bundle (g : Grammar σ) (s : Spelling σ) : Except Refusal (Bundle σ) :=
  match s.value with
  | none => .ok { last := s.rule }
  | some value =>
    if startsWith s.name ['-', '-'] && !s.rule.takesValue then
      .error (.valueIgnored s.rule.names value)
    else g.letters s.rule value

/-- What has been read of a command line. -/
structure Reading (σ : Type) where
  values : σ
  /-- Whether the place for an operand is taken. -/
  taken : Bool := false
  leftOver : List Text := []

def Reading.leave (r : Reading σ) (words : List Text) : Reading σ :=
  { r with leftOver := r.leftOver ++ words }

def Grammar.readWords (g : Grammar σ) : List (Word σ) → Reading σ → Except Refusal (Reading σ)
  | [], r => .ok r
  | .option text none :: rest, r => g.readWords rest (r.leave [text])
  | .option _ (some s) :: rest, r =>
    match g.bundle s with
    | .error e => .error e
    | .ok b =>
      match b.wantsWord, rest with
      | false, rest => do g.readWords rest { r with values := ← b.apply b.value r.values }
      | true, .operand value :: rest => do
        g.readWords rest { r with values := ← b.apply (some value) r.values }
      | true, _ => .error (.valueMissing b.last.names)
  | .operand text :: rest, r =>
    match g.operand, r.taken with
    | .one set, false =>
      let r := { r with values := set text r.values, taken := true }
      match rest with
      | .divider :: rest => g.readWords rest r
      | rest => g.readWords rest r
    | .rest set, false =>
      .ok { r with values := set (text :: rest.map Word.text) r.values, taken := true }
    | _, _ => g.readWords rest (r.leave [text])
  | .divider :: rest, r =>
    match g.operand, r.taken, rest with
    | .one _, false, [] => .ok { r with taken := true }
    | .one set, false, word :: rest =>
      g.readWords rest { r with values := set word.text r.values, taken := true }
    | .rest set, false, word :: rest =>
      .ok { r with
        values := set (['-', '-'] :: word.text :: rest.map Word.text) r.values, taken := true }
    | _, _, rest => g.readWords rest (r.leave [['-', '-']])

def Grammar.read (g : Grammar σ) (values : σ) (line : List Text) : Except Refusal (Reading σ) := do
  g.readWords (← g.words line) { values }

end CodeGraft.Command
