import CodeGraft.Decimal.Shortest
import CodeGraft.Text.Quoted

/-!
# JSON values

The values of the data format that the history is kept in. Numbers are integers of any size or
decimals; infinities and the undefined number are admitted. The fields of an object keep their
order.
-/

namespace CodeGraft.Json

inductive Number where
  | integer (value : Int)
  /-- The number `digits * 10 ^ exponent`, in its shortest form. -/
  | decimal (negative : Bool) (value : Decimal.Scaled)
  | infinite (negative : Bool)
  | undefined
  deriving DecidableEq, Repr

inductive Value where
  | null
  | bool (b : Bool)
  | number (n : Number)
  | text (t : Text)
  | list (items : List Value)
  | object (fields : List (Text × Value))

instance : Inhabited Value := ⟨.null⟩

namespace Number

/-- The decimal nearest to `digits * 10 ^ exponent` among those that stand for a number of limited
precision. -/
def ofDecimal (negative : Bool) (digits : Nat) (exponent : Int) : Number :=
  let size : Int := (Nat.toDigits 10 digits).length + exponent
  if digits = 0 ∨ size < -330 then .decimal negative ⟨0, 0⟩
  else if 330 < size then .infinite negative
  else
    let (num, den) := Decimal.fraction digits 10 exponent
    match Decimal.nearest? num den with
    | none => .infinite negative
    | some b =>
      if b.mantissa = 0 then .decimal negative ⟨0, 0⟩ else .decimal negative (Decimal.shortest b)

def positional (digits : Text) (point : Int) : Text :=
  if point ≤ 0 then "0.".toList ++ List.replicate (-point).toNat '0' ++ digits
  else if digits.length ≤ point.toNat then
    digits ++ List.replicate (point.toNat - digits.length) '0' ++ ".0".toList
  else digits.take point.toNat ++ '.' :: digits.drop point.toNat

/-- Decimal digits with a point behind the first and the power of ten that they are multiplied by,
which has a sign and at least two digits. -/
def scientific (digits : Text) (power : Int) : Text :=
  let mantissa := match digits with
    | [d] => [d]
    | d :: rest => d :: '.' :: rest
    | [] => []
  let magnitude := Text.ofNat power.natAbs
  .glue [mantissa, if power < 0 then "e-" else "e+",
    List.replicate (2 - magnitude.length) '0', magnitude]

/-- The text of a positive decimal: positional from one ten-thousandth up to sixteen digits in front
of the point, else with a power of ten. -/
def decimalText (d : Decimal.Scaled) : Text :=
  if d.digits = 0 then "0.0"
  else
    let digits := Text.ofNat d.digits
    let power := d.exponent + digits.length - 1
    if -4 ≤ power ∧ power < 16 then positional digits (power + 1) else scientific digits power

/-- The text of a number; `infinity` and `undefinedWord` are the words for what is no number proper.
-/
def text (infinity undefinedWord : Text) : Number → Text
  | .integer i => .ofInt i
  | .decimal negative d => (if negative then ['-'] else []) ++ decimalText d
  | .infinite negative => (if negative then ['-'] else []) ++ infinity
  | .undefined => undefinedWord

def isZero : Number → Bool
  | .integer i => i = 0
  | .decimal _ d => d.digits = 0
  | _ => false

end Number

namespace Value

def isFilled : Value → Bool
  | null => false
  | bool b => b
  | number n => !n.isZero
  | text t => !t.isEmpty
  | list items => !items.isEmpty
  | object fields => !fields.isEmpty

/-- The value of a field; of several fields of one name the last one counts. -/
def get? (key : Text) : Value → Option Value
  | object fields => (fields.reverse.find? (·.1 = key)).map (·.2)
  | _ => none

/-- Sets a field: it keeps its place if there is one of its name, and else comes last. -/
def putField (key : Text) (value : Value) : List (Text × Value) → List (Text × Value)
  | [] => [(key, value)]
  | field :: fields =>
    if field.1 = key then (key, value) :: fields else field :: putField key value fields

def ofFields (fields : List (Text × Value)) : Value :=
  object (fields.foldl (fun set field => putField field.1 field.2 set) [])

theorem mem_putField_keys (key : Text) (value : Value) (fields : List (Text × Value))
    (other : Text) :
    other ∈ (putField key value fields).map (·.1) ↔ other = key ∨ other ∈ fields.map (·.1) := by
  induction fields with
  | nil => simp [putField]
  | cons field fields ih =>
    by_cases h : field.1 = key
    · simp [putField, h]
    · simp only [putField, h, if_false, List.map_cons, List.mem_cons, ih]
      exact or_left_comm

theorem nodup_putField_keys (key : Text) (value : Value) (fields : List (Text × Value))
    (h : (fields.map (·.1)).Nodup) : ((putField key value fields).map (·.1)).Nodup := by
  induction fields with
  | nil => simp [putField]
  | cons field fields ih =>
    rw [List.map_cons, List.nodup_cons] at h
    by_cases hk : field.1 = key
    · rw [putField, if_pos hk, List.map_cons, List.nodup_cons, ← hk]
      exact h
    · rw [putField, if_neg hk, List.map_cons, List.nodup_cons]
      refine ⟨fun hc => ?_, ih h.2⟩
      rcases (mem_putField_keys key value fields field.1).1 hc with hc | hc
      · exact hk hc
      · exact h.1 hc

def kindName : Value → String
  | null => "NoneType"
  | bool _ => "bool"
  | number (.integer _) => "int"
  | number _ => "float"
  | text _ => "str"
  | list _ => "list"
  | object _ => "dict"

mutual

def inner : Value → Text
  | null => "None"
  | bool b => if b then "True" else "False"
  | number n => n.text "inf" "nan"
  | text t => Text.quoted t
  | list items => .glue ["[", innerItems items, "]"]
  | object fields => .glue ["\x7b", innerFields fields, "\x7d"]

/-- Values with a comma and a blank between neighbours. -/
def innerItems : List Value → Text
  | [] => []
  | [item] => item.inner
  | item :: items => .glue [item.inner, ", ", innerItems items]

/-- Fields with a comma and a blank between neighbours. -/
def innerFields : List (Text × Value) → Text
  | [] => []
  | [(key, value)] => .glue [Text.quoted key, ": ", value.inner]
  | (key, value) :: fields => .glue [Text.quoted key, ": ", value.inner, ", ", innerFields fields]

end

def shown : Value → Text
  | text t => t
  | value => value.inner

end Value

end CodeGraft.Json
