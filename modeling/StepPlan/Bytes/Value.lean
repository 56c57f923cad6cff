import StepPlan.Bytes.Integer

/-!
# Truth values, strings, options and lists as bytes

A truth value is one byte. A string is its length in bytes and its UTF-8. An option is one byte that
says whether something is there, and then that. A list is its length and then its items.
-/

namespace StepPlan.Bytes

/-- A truth value. -/
def encodeBool (b : Bool) : List UInt8 :=
  [if b then 1 else 0]

/-- A string. -/
def encodeString (s : String) : List UInt8 :=
  let bytes := Text.Utf8.encode s.toList
  encodeNat bytes.length ++ bytes

/-- An option. -/
def encodeOption {α : Type} (encode : α → List UInt8) : Option α → List UInt8
  | none => [0]
  | some a => 1 :: encode a

/-- A list. -/
def encodeList {α : Type} (encode : α → List UInt8) (as : List α) : List UInt8 :=
  encodeNat as.length ++ as.flatMap encode

namespace Decoder

/-- Takes a truth value. -/
def bool : Decoder Bool := do
  let b ← byte
  if b = 0 then return false
  else if b = 1 then return true
  else fail (.notBoolean b)

/-- Takes a string. All its bytes are taken before they are looked at. -/
def string : Decoder String := do
  let n ← word
  let bytes ← take n
  match Text.Utf8.decode bytes with
  | .ok cs => return String.ofList cs
  | .error reason => fail (.notText reason)

/-- Takes an option. -/
def option {α : Type} (x : Decoder α) : Decoder (Option α) := do
  let b ← byte
  if b = 0 then return none
  else if b = 1 then do
    let a ← x
    return some a
  else fail (.notOption b)

/-- Takes a list. -/
def list {α : Type} (x : Decoder α) : Decoder (List α) := do
  let n ← length
  replicate x n

end Decoder

end StepPlan.Bytes
