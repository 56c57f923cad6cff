/-!
# Finite binary64 values

A double is held as a sign and a whole number of the smallest positive steps, `2 ^ -1074`, written
`mantissa · 2 ^ scale` with a mantissa of at most 53 bits. The form is canonical: unless the scale
is zero the mantissa has all its 53 bits, so two doubles are the same value with the same sign
exactly when they are equal. Zero has both signs.

`ofRatio?` rounds a non-negative rational number of steps to the nearest double, a half going to the
even mantissa, and gives nothing when the result would not be finite. Products (`mul?`) and
quotients (`div?`) are exact rationals that are rounded so.

Powers are those of the core library, also where others are in scope; numerals in the exponent are
given their type, without which the choice would be left to a default instance.
-/

namespace StepPlan

attribute [scoped instance(10001)] instPowNat

/-- A finite binary64 value: `mantissa · 2 ^ scale` steps of `2 ^ -1074`, with a sign. -/
structure Double where
  /-- The sign, also of zero. -/
  negative : Bool
  /-- The significant bits. -/
  mantissa : Nat
  /-- The power of two of the steps that the mantissa counts. -/
  scale : Nat
  /-- The mantissa has at most 53 bits. -/
  mantissa_lt : mantissa < 2 ^ (53 : Nat)
  /-- Only values below `2 ^ -1022` leave the leading bit unset. -/
  normal : scale = 0 ∨ 2 ^ (52 : Nat) ≤ mantissa
  /-- The value is finite. -/
  scale_le : scale ≤ 2045
deriving DecidableEq

namespace Double

/-- Zero with the given sign. -/
def zero (negative : Bool) : Double :=
  ⟨negative, 0, 0, by decide, .inl rfl, by decide⟩

/-- The number of steps of `2 ^ -1074` in the magnitude. -/
def steps (d : Double) : Nat :=
  d.mantissa * 2 ^ d.scale

/-- Equality of numbers: the two zeros are equal. -/
def same (a b : Double) : Bool :=
  a == b || (a.mantissa == 0 && b.mantissa == 0)

/-- Every double equals itself. -/
theorem same_self (a : Double) : a.same a = true := by simp [same]

/-- The double `mantissa · 2 ^ scale` steps, if these two are a canonical form. -/
def ofParts? (negative : Bool) (mantissa scale : Nat) : Option Double :=
  if h : mantissa < 2 ^ (53 : Nat) ∧ (scale = 0 ∨ 2 ^ (52 : Nat) ≤ mantissa) ∧ scale ≤ 2045 then
    some ⟨negative, mantissa, scale, h.1, h.2.1, h.2.2⟩
  else
    none

/-- The whole number nearest to `num / den`; a half goes to the even one. -/
def nearest (num den : Nat) : Nat :=
  let q := num / den
  let r := num % den
  if 2 * r < den then q
  else if den < 2 * r then q + 1
  else q + q % 2

/-- The double nearest to `num / den` steps; nothing when it is not finite. -/
def ofRatio? (negative : Bool) (num den : Nat) : Option Double :=
  let scale := Nat.log2 (num / den) - 52
  let mantissa := nearest num (den * 2 ^ scale)
  if mantissa = 2 ^ (53 : Nat) then ofParts? negative (2 ^ (52 : Nat)) (scale + 1)
  else ofParts? negative mantissa scale

/-- The double nearest to a product; nothing when it is not finite. -/
def mul? (a b : Double) : Option Double :=
  ofRatio? (a.negative != b.negative) (a.steps * b.steps) (2 ^ (1074 : Nat))

/-- The double nearest to a quotient; nothing when it is not finite. -/
def div? (a b : Double) : Option Double :=
  if b.mantissa = 0 then none
  else ofRatio? (a.negative != b.negative) (a.steps * 2 ^ (1074 : Nat)) b.steps

end Double

end StepPlan
