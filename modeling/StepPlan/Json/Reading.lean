import StepPlan.Json.Document
import StepPlan.Json.Value
import StepPlan.Text.Messages

/-!
# Reading documents

A document is read into a wanted shape from its first token to its last, and the first problem
decides: a fault of the text, or a `Mismatch`, which says what the document has and what was wanted.
Mismatches on an array or object arise at its opening bracket; a scalar is read first.

`Doc.value` reads any value. Arrays and objects may be nested `maxDepth` deep; the next one is a
fault. `Doc.skip` passes over a value that nobody asked for: it holds the text to its grammar and
to nothing else.
-/

namespace StepPlan.Json

/-- What a document has in the place of what was wanted. -/
inductive Found where
  | null
  | bool (value : Bool)
  | num (value : Number)
  | str (value : String)
  | sequence
  | map
  /-- The name of a variant alone. -/
  | bareVariant
deriving DecidableEq

/-- How a message names what was found. -/
def Found.phrase : Found → String
  | .null => "null"
  | .bool b => "boolean `" ++ (if b then "true" else "false") ++ "`"
  | .num (.int i) => "integer `" ++ (Number.int i).text ++ "`"
  | .num (.double d) => "floating point `" ++ (Number.double d).text ++ "`"
  | .str s => "string " ++ Text.quoted s
  | .sequence => "sequence"
  | .map => "map"
  | .bareVariant => "unit variant"

/-- What is wanted of a document. -/
inductive Wanted where
  | string
  | sequence
  | boolean
  | word
  | index
  | nothing
  /-- A variant with its content. -/
  | filledVariant
  | record (name : String)
deriving DecidableEq

/-- How a message names what was wanted. -/
def Wanted.phrase : Wanted → String
  | .string => "a string"
  | .sequence => "a sequence"
  | .boolean => "a boolean"
  | .word => "u64"
  | .index => "usize"
  | .nothing => "unit"
  | .filledVariant => "newtype variant"
  | .record name => "struct " ++ name

/-- How a document differs from the wanted shape. -/
inductive Mismatch where
  /-- One sort of value in the place of another. -/
  | sort (found : Found) (wanted : Wanted)
  | range (value : Int) (wanted : Wanted)
  | missing (field : String)
  | duplicate (field : String)
  /-- A record written as an array has too few items. -/
  | length (found : Nat) (record : String) (fields : Nat)
  | variant (name : String) (allowed : List String)
deriving DecidableEq

/-- The message of a mismatch. -/
def Mismatch.message : Mismatch → String
  | .sort found wanted => "invalid type: " ++ found.phrase ++ ", expected " ++ wanted.phrase
  | .range value wanted =>
    "invalid value: integer `" ++ (Number.int value).text ++ "`, expected " ++ wanted.phrase
  | .missing field => "missing field `" ++ field ++ "`"
  | .duplicate field => "duplicate field `" ++ field ++ "`"
  | .length found record fields =>
    "invalid length " ++ toString found ++ ", expected struct " ++ record ++ " with "
      ++ toString fields ++ " elements"
  | .variant name allowed =>
    "unknown variant `" ++ name ++ "`, expected one of "
      ++ ", ".intercalate (allowed.map fun a => "`" ++ a ++ "`")

/-- Why a text cannot be read into the wanted shape. -/
inductive ReadError where
  | fault (fault : Fault)
  | mismatch (mismatch : Mismatch)
deriving DecidableEq

/-- What is wrong with a text. -/
def ReadError.message : ReadError → String
  | .fault .truncated => "the text ends too early"
  | .fault .malformed => "the text is not JSON"
  | .mismatch m => m.message

/-- How deep arrays and objects may be nested. -/
def maxDepth : Nat := 127

/-- The end of an array or object. -/
def Ending.check : Ending → Except Fault Unit
  | .closed => .ok ()
  | .faulty f => .error f

/-- A fault as the reason why a text cannot be read. -/
def liftFault {α : Type} : Except Fault α → Except ReadError α
  | .ok a => .ok a
  | .error f => .error (.fault f)

namespace Key

/-- Reads a key. -/
def read : Key → Except Fault String
  | .text (some s) => .ok s
  | .text none => .error .malformed
  | .broken piece => .error piece.strict

/-- Passes over a key. -/
def skip : Key → Except Fault Unit
  | .text _ => .ok ()
  | .broken piece => .error piece.lax

end Key

namespace Doc

mutual

/-- Passes over a value. -/
def skip : Doc → Except Fault Unit
  | .null | .bool _ | .num _ | .str _ => .ok ()
  | .arr items ending => do
    skipItems items
    ending.check
  | .obj members ending => do
    skipMembers members
    ending.check
  | .broken piece => .error piece.lax

/-- Passes over the items of an array. -/
def skipItems : List Doc → Except Fault Unit
  | [] => .ok ()
  | item :: items => do
    skip item
    skipItems items

/-- Passes over the members of an object. -/
def skipMembers : List (Key × Doc) → Except Fault Unit
  | [] => .ok ()
  | (key, value) :: members => do
    key.skip
    skip value
    skipMembers members

end

mutual

/-- Reads a value in which arrays and objects may be nested `depth` deep. -/
def value (depth : Nat) : Doc → Except Fault Json
  | .null => .ok .null
  | .bool b => .ok (.bool b)
  | .num (some n) => .ok (.num n)
  | .num none => .error .malformed
  | .str (some s) => .ok (.str s)
  | .str none => .error .malformed
  | .arr items ending =>
    match depth with
    | 0 => .error .malformed
    | depth + 1 => do
      let items ← values depth items
      ending.check
      return .arr items
  | .obj members ending =>
    match depth with
    | 0 => .error .malformed
    | depth + 1 => do
      let members ← memberValues depth [] members
      ending.check
      return .obj members
  | .broken piece => .error piece.strict

/-- Reads the items of an array. -/
def values (depth : Nat) : List Doc → Except Fault (List Json)
  | [] => .ok []
  | item :: items => do
    let item ← value depth item
    let items ← values depth items
    return item :: items

/-- Reads the members of an object and puts them among those read before. -/
def memberValues (depth : Nat) (before : List (String × Json)) :
    List (Key × Doc) → Except Fault (List (String × Json))
  | [] => .ok before
  | (key, item) :: members => do
    let key ← key.read
    let item ← value depth item
    memberValues depth (insertMember key item before) members

end

/-- The error of a document that is not of the wanted sort. A flawed scalar is a fault. -/
def mismatch (wanted : Wanted) : Doc → ReadError
  | .null => .mismatch (.sort .null wanted)
  | .bool b => .mismatch (.sort (.bool b) wanted)
  | .num (some n) => .mismatch (.sort (.num n) wanted)
  | .num none => .fault .malformed
  | .str (some s) => .mismatch (.sort (.str s) wanted)
  | .str none => .fault .malformed
  | .arr _ _ => .mismatch (.sort .sequence wanted)
  | .obj _ _ => .mismatch (.sort .map wanted)
  | .broken piece => .fault piece.strict

/-- Reads a string. -/
def string : Doc → Except ReadError String
  | .str (some s) => .ok s
  | d => .error (d.mismatch .string)

/-- Reads a truth value. -/
def boolean : Doc → Except ReadError Bool
  | .bool b => .ok b
  | d => .error (d.mismatch .boolean)

/-- Reads a whole number of 64 bits without a sign. -/
def word (wanted : Wanted) : Doc → Except ReadError UInt64
  | .num (some (.int (.ofNat n))) =>
    if n < 2 ^ (64 : Nat) then .ok (.ofNat n) else .error (.mismatch (.range n wanted))
  | .num (some (.int (.negSucc n))) => .error (.mismatch (.range (.negSucc n) wanted))
  | d => .error (d.mismatch wanted)

/-- Reads nothing from `null` and something from anything else. -/
def optional {α : Type} (read : Doc → Except ReadError α) : Doc → Except ReadError (Option α)
  | .null => .ok none
  | d => some <$> read d

/-- Reads an array item by item. -/
def list {α : Type} (read : Doc → Except ReadError α) : Doc → Except ReadError (List α)
  | .arr items ending => do
    let items ← items.mapM read
    liftFault ending.check
    return items
  | d => .error (d.mismatch .sequence)

end Doc

/-- Reads a whole text: behind the document only blanks may stand. -/
def readText {α : Type} (read : Doc → Except ReadError α) (s : String) : Except ReadError α := do
  let parsed := Doc.ofText s
  let a ← read parsed.root
  if parsed.overfull then .error (.fault .malformed) else return a

end StepPlan.Json
