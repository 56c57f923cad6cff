import StepPlan.Number.Double

/-!
# Decimals as doubles

A decimal is collected digit by digit (`Decimal.wholeDigit`, `Decimal.fractionDigit`). Its leading
digits are kept as long as they fit a word of 64 bits, which is more than a double can tell apart.
A digit of the whole part that does not fit still counts as a place; a digit of the fraction that
does not fit counts for nothing.

`Decimal.double?` turns it into a double with the arithmetic of doubles: the kept digits are
rounded, and the result is multiplied or divided by a power of ten. Each step rounds to nearest, so
the outcome is the nearest double whenever digits and power of ten are doubles themselves, and may
lie beside it otherwise.
-/

namespace StepPlan

namespace Double

/-- The exponent of the greatest power of ten among the doubles. -/
def greatestTen : Nat := 308

/-- The double nearest to a power of ten. -/
def tenTo? (exponent : Nat) : Option Double :=
  ofRatio? false (10 ^ exponent * 2 ^ (1074 : Nat)) 1

/-- Multiplies by a power of ten; nothing when the result is not finite. -/
def scaleUp? (d : Double) (exponent : Nat) : Option Double :=
  if exponent ≤ greatestTen then (tenTo? exponent).bind d.mul?
  else if d.mantissa = 0 then some d
  else none

/-- Divides by the greatest power of ten so many times, or until nothing is left. -/
def lowered? (d : Double) : Nat → Option Double
  | 0 => some d
  | times + 1 =>
    if d.mantissa = 0 then some d
    else
      match (tenTo? greatestTen).bind d.div? with
      | some d => lowered? d times
      | none => none

/-- Divides by a power of ten. One that is no double is taken in several divisions, the last of them
by what the others leave. -/
def scaleDown? (d : Double) (exponent : Nat) : Option Double := do
  let times := (exponent - 1) / greatestTen
  let d ← d.lowered? times
  d.div? (← tenTo? (exponent - times * greatestTen))

end Double

/-- A decimal numeral without a sign, as far as it is kept: `digits · 10 ^ exponent`. -/
structure Decimal where
  digits : Nat
  /-- The power of ten that the last kept digit counts. -/
  exponent : Int
  /-- A digit of this part, whole part or fraction, did not fit. -/
  full : Bool
deriving DecidableEq

namespace Decimal

/-- The decimal of one digit. -/
def ofDigit (digit : Nat) : Decimal :=
  ⟨digit, 0, false⟩

/-- The digits with one more, if they fit. -/
def extended? (d : Decimal) (digit : Nat) : Option Nat :=
  let digits := d.digits * 10 + digit
  if d.full ∨ 2 ^ (64 : Nat) ≤ digits then none else some digits

/-- A further digit of the whole part. -/
def wholeDigit (d : Decimal) (digit : Nat) : Decimal :=
  match d.extended? digit with
  | some digits => { d with digits := digits }
  | none => { d with exponent := d.exponent + 1, full := true }

/-- The fraction begins: its first digit may fit again. -/
def point (d : Decimal) : Decimal :=
  { d with full := false }

/-- A further digit of the fraction. -/
def fractionDigit (d : Decimal) (digit : Nat) : Decimal :=
  match d.extended? digit with
  | some digits => { d with digits := digits, exponent := d.exponent - 1 }
  | none => { d with full := true }

/-- The decimal times a power of ten. -/
def scaled (d : Decimal) (exponent : Int) : Decimal :=
  { d with exponent := d.exponent + exponent }

/-- The double that a decimal stands for; nothing when it is not finite. -/
def double? (negative : Bool) (d : Decimal) : Option Double := do
  let digits ← Double.ofRatio? negative (d.digits * 2 ^ (1074 : Nat)) 1
  match d.exponent with
  | .ofNat e => digits.scaleUp? e
  | .negSucc e => digits.scaleDown? (e + 1)

end Decimal

end StepPlan
