/-!
# Shortest decimals

A decimal literal stands for the nearest number of fifty-three binary digits, and that number is
written with the fewest decimal digits that stand for it, the nearest of those that are as short.
Everything is computed with natural numbers, so it is exact.
-/

namespace CodeGraft.Decimal

structure Binary where
  mantissa : Nat
  exponent : Int
  deriving DecidableEq, Repr

structure Scaled where
  digits : Nat
  exponent : Int
  deriving DecidableEq, Repr

def fraction (digits base : Nat) (exponent : Int) : Nat × Nat :=
  if 0 ≤ exponent then (digits * base.pow exponent.toNat, 1)
  else (digits, base.pow (-exponent).toNat)

/-- The integer nearest to a fraction; halfway, the even one. -/
def roundToEven (num den : Nat) : Nat :=
  let quotient := num / den
  let rest := num % den
  if 2 * rest < den ∨ (2 * rest = den ∧ quotient % 2 = 0) then quotient else quotient + 1

/-- The integer nearest to a fraction divided by `2 ^ exponent`. -/
def roundAt (num den : Nat) (exponent : Int) : Nat :=
  if 0 ≤ exponent then roundToEven num (den * Nat.pow 2 exponent.toNat)
  else roundToEven (num * Nat.pow 2 (-exponent).toNat) den

/-- The exponent at which a fraction has fifty-three binary digits in front of the point, but no
less than the least one. -/
def exponentOf (num den : Nat) : Int :=
  let guess : Int := (num.log2 : Int) - den.log2 - 52
  let whole :=
    if 0 ≤ guess then num / (den * Nat.pow 2 guess.toNat)
    else num * Nat.pow 2 (-guess).toNat / den
  max (-1074) (if whole < Nat.pow 2 52 then guess - 1 else guess)

/-- The binary number nearest to a positive fraction, if it is not too large. -/
def nearest? (num den : Nat) : Option Binary :=
  let exponent := exponentOf num den
  let mantissa := roundAt num den exponent
  let rounded : Binary :=
    if mantissa = Nat.pow 2 53 then ⟨Nat.pow 2 52, exponent + 1⟩ else ⟨mantissa, exponent⟩
  if 971 < rounded.exponent then none else some rounded

def standsFor (d : Scaled) (b : Binary) : Bool :=
  let (num, den) := fraction d.digits 10 d.exponent
  d.digits ≠ 0 && nearest? num den = some b

def leadingPower (num den : Nat) : Int := (Nat.toDigits 10 (num / den)).length - 1

/-- The least power of ten that brings a fraction to at least one; `bound` limits the search. -/
def liftingPower : (bound : Nat) → (num den : Nat) → Nat
  | 0, _, _ => 0
  | bound + 1, num, den => if den ≤ num then 0 else liftingPower bound (num * 10) den + 1

/-- The power of ten at the first digit of a positive fraction. -/
def firstPower (num den : Nat) : Int :=
  if den ≤ num then leadingPower num den else -(liftingPower 400 num den : Int)

/-- The decimals of `count` digits next to a fraction, on both sides of it, the nearer one first;
halfway, the even one first. -/
def neighbours (num den : Nat) (count : Nat) : List Scaled :=
  let exponent := firstPower num den - count + 1
  let (n, d) := if 0 ≤ exponent then (num, den * Nat.pow 10 exponent.toNat)
    else (num * Nat.pow 10 (-exponent).toNat, den)
  let below : Scaled := ⟨n / d, exponent⟩
  let above : Scaled := ⟨n / d + 1, exponent⟩
  if roundToEven n d = n / d then [below, above] else [above, below]

/-- A decimal without zeros at the end; `bound` limits their number. -/
def dropZeros : (bound : Nat) → Scaled → Scaled
  | 0, d => d
  | bound + 1, d =>
    if d.digits % 10 = 0 ∧ d.digits ≠ 0 then dropZeros bound ⟨d.digits / 10, d.exponent + 1⟩ else d

/-- The shortest decimal that stands for a binary number. Seventeen digits are always enough. -/
def shortest (b : Binary) : Scaled :=
  let (num, den) := fraction b.mantissa 2 b.exponent
  let candidates := (List.range 17).flatMap fun i => neighbours num den (i + 1)
  dropZeros 20 ((candidates.find? (standsFor · b)).getD ⟨b.mantissa, 0⟩)

end CodeGraft.Decimal
