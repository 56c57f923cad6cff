import StepPlan.Number.Double

/-!
# Shortest decimals

The text of a double is the shortest decimal that rounds to it, and of those the nearest to it.
`Double.shortest` finds its digits: the reals that round to the double form an interval around it,
and the coarsest power of ten with a multiple in that interval gives the fewest digits. All
arithmetic is exact, on whole multiples of `2 ^ -1076`, in which the ends of the interval are whole.

`DecimalLayout` says how digits and exponent are set down.
-/

namespace StepPlan

namespace Double

/-- The interval of reals that round to a double, around its magnitude, in units of `2 ^ -1076`. -/
structure Interval where
  low : Nat
  mid : Nat
  high : Nat
  /-- The ends themselves round to the double. -/
  closed : Bool

/-- The interval of a double. Below a power of two the neighbour is twice as near; the ends round to
the double when its mantissa is even. -/
def interval (d : Double) : Interval :=
  let unit := 2 ^ d.scale
  let below := if d.mantissa = 2 ^ (52 : Nat) ∧ 0 < d.scale then unit else 2 * unit
  let mid := 4 * d.steps
  ⟨mid - below, mid, mid + 2 * unit, d.mantissa % 2 == 0⟩

/-- `num / den`, in the units of the interval, lies in it. -/
def Interval.holds (i : Interval) (num den : Nat) : Bool :=
  if i.closed then i.low * den ≤ num && num ≤ i.high * den
  else i.low * den < num && num < i.high * den

/-- A power of ten in the units of the interval, as numerator and denominator. -/
def gridStep : Int → Nat × Nat
  | .ofNat e => (10 ^ e * 2 ^ (1076 : Nat), 1)
  | .negSucc e => (2 ^ (1076 : Nat), 10 ^ (e + 1))

/-- The multiple of `10 ^ exponent` nearest to the middle of the interval, if one of the two beside
the middle lies in it; a tie goes to the even multiple. -/
def Interval.multiple? (i : Interval) (exponent : Int) : Option Nat :=
  let (num, den) := gridStep exponent
  let q := i.mid * den / num
  let r := i.mid * den % num
  let lower := i.holds (q * num) den
  let upper := i.holds ((q + 1) * num) den
  if lower && upper then
    some (if 2 * r < num then q else if num < 2 * r then q + 1 else q + q % 2)
  else if lower then some q
  else if upper then some (q + 1)
  else none

/-- Tries the powers of ten from `exponent` downwards. -/
def Interval.search (i : Interval) : Nat → Int → Option (Nat × Int)
  | 0, _ => none
  | tries + 1, exponent =>
    match i.multiple? exponent with
    | some digits => some (digits, exponent)
    | none => i.search tries (exponent - 1)

/-- Digits and exponent of the shortest decimal that rounds to the magnitude of `d`. The search
starts above the value and ends within twenty powers of ten; the last resort is the exact
expansion. -/
def shortest (d : Double) : Nat × Int :=
  let i := d.interval
  let top : Int := ((Nat.log2 i.mid : Int) - 1076) * 30103 / 100000 + 1
  (i.search 24 top).getD (d.steps * 5 ^ (1074 : Nat), -1074)

end Double

/-- How a decimal is set down: which exponents are written in full, and the mark of the others. -/
structure DecimalLayout where
  /-- The least exponent of the leading digit that is written in full. -/
  least : Int
  /-- The greatest exponent of the leading digit that is written in full. -/
  greatest : Int
  /-- Written before an exponent that is not negative. -/
  mark : List Char
  /-- Written before the magnitude of a negative exponent. -/
  negativeMark : List Char

namespace DecimalLayout

/-- The text of `digits · 10 ^ exponent` for a positive `digits`. In full there is at least one
digit on either side of the point. -/
def write (l : DecimalLayout) (digits : Nat) (exponent : Int) : List Char :=
  let ds := Nat.toDigits 10 digits
  let lead : Int := ds.length - 1 + exponent
  if l.least ≤ lead ∧ lead ≤ l.greatest then
    if 0 ≤ exponent then ds ++ List.replicate exponent.toNat '0' ++ ['.', '0']
    else if 0 ≤ lead then
      ds.take (lead.toNat + 1) ++ '.' :: ds.drop (lead.toNat + 1)
    else '0' :: '.' :: (List.replicate (-lead - 1).toNat '0' ++ ds)
  else
    let fraction := if ds.length ≤ 1 then [] else '.' :: ds.drop 1
    let mark := if 0 ≤ lead then l.mark else l.negativeMark
    ds.take 1 ++ fraction ++ mark ++ Nat.toDigits 10 lead.natAbs

end DecimalLayout

end StepPlan
