import StepPlan.Number.Shortest

/-!
# Numbers

A number in a payload is a whole number or a double; `1` and `1.0` are different numbers. Whole
numbers are written in decimal, doubles with the fewest digits that no other double is nearer to, in
full when the leading digit counts for `10 ^ -5` to `10 ^ 15`.
-/

namespace StepPlan

/-- A whole number or a double. -/
inductive Number where
  /-- A number written without point or exponent. -/
  | int (value : Int)
  /-- A number held in floating point. -/
  | double (value : Double)
deriving DecidableEq

/-- Doubles are written in full from `0.00001` to below `10 ^ 16`. -/
def doubleLayout : DecimalLayout :=
  ⟨-5, 15, ['e', '+'], ['e', '-']⟩

/-- The text of a double. -/
def Double.chars (d : Double) : List Char :=
  let sign := if d.negative then ['-'] else []
  if d.mantissa = 0 then sign ++ ['0', '.', '0']
  else
    let (digits, exponent) := d.shortest
    sign ++ doubleLayout.write digits exponent

namespace Number

/-- The least whole number that is kept as one. -/
def leastInt : Int := -2 ^ (63 : Nat)

/-- The greatest whole number that is kept as one. -/
def greatestInt : Int := 2 ^ (64 : Nat) - 1

/-- Equality of numbers of one sort: a whole number never equals a double. -/
def same : Number → Number → Bool
  | .int a, .int b => a == b
  | .double a, .double b => a.same b
  | _, _ => false

/-- Every number equals itself. -/
theorem same_self (n : Number) : n.same n = true := by
  cases n <;> simp [same, Double.same_self]

/-- The text of a whole number. -/
def intChars : Int → List Char
  | .ofNat n => Nat.toDigits 10 n
  | .negSucc n => '-' :: Nat.toDigits 10 (n + 1)

/-- The text of a number. -/
def chars : Number → List Char
  | .int i => intChars i
  | .double d => d.chars

/-- The text of a number as a string. -/
def text (n : Number) : String :=
  String.ofList n.chars

end Number

end StepPlan
